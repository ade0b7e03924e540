import Nockchain.TxEngine.Page

/-!
# `Nockchain.Wallet.TxBuilder`: the transaction builder of the wallet

The gate of `tx-builder.hoon`. The notes are taken from the largest on. Each
pays the orders that are still open, in part or in full, then a part of the fee,
and what is left goes back to the refund lock; the parts become the seeds of its
spend. A note that has nothing to pay is left out.

The lock of an input is read from its data, where it has any, by the mold of
`$lock-data`, and the fee is held against an estimate of the words that the spends
take. The signatures and the data for the display are not part of the model.
-/

set_option autoImplicit false

namespace Nockchain.Wallet

open Lib TxEngine.V1
open TxEngine hiding Nnote

variable [Tip5]

/-- `$lock`, of a single spend condition. The wallet spends no input with any other. -/
abbrev Lock := SpendCondition

/-- `$order`. -/
inductive Order where
  | pkh (recipient : Digest) (gift : Nat)
  | multisig (threshold : Nat) (participants : List Digest) (gift : Nat)
deriving DecidableEq

namespace Order

/-- `order-gift`. -/
def gift : Order → Nat
  | .pkh _ gift => gift
  | .multisig _ _ gift => gift

/-- `with-gift`. -/
def withGift : Order → Nat → Order
  | .pkh recipient _, gift => .pkh recipient gift
  | .multisig threshold participants _, gift => .multisig threshold participants gift

/-- `order-lock`. -/
def lock : Order → Lock
  | .pkh recipient _ => [.pkh ⟨1, ZSet.gas ∅ [recipient]⟩]
  | .multisig threshold participants _ => [.pkh ⟨threshold, ZSet.gas ∅ participants⟩]

/-- An order of several participants. -/
def isMultisig : Order → Bool
  | .pkh _ _ => false
  | .multisig _ _ _ => true

/-- One order of `orders-valid`. -/
def valid : Order → Except String Unit
  | .pkh _ gift => if gift = 0 then .error "gift-cannot-be-zero" else .ok ()
  | .multisig threshold participants gift =>
    let unique := (ZSet.gas ∅ participants).wyt
    if participants = [] then .error "Multisig order must include at least one participant"
    else if threshold ≤ 0 then .error "Multisig threshold must be greater than zero"
    else if participants.length < threshold then
      .error "Multisig threshold cannot exceed number of participants"
    else if unique < participants.length then .error "Multisig participants must be unique"
    else if gift = 0 then .error "order must include a gift greater than 0"
    else .ok ()

end Order

/-- `orders-valid`. -/
def ordersValid (orders : List Order) : Except String Unit :=
  if orders.length = 0 then .error "cannot create transaction with no orders"
  else orders.forM Order.valid

/-- `order-from-lock`: an order to the first primitive of a lock. Crashes where that one has no
participants. -/
def orderFromLock (lok : Lock) (gift : Nat) : Option (Option Order) :=
  match lok with
  | [] => none
  | .pkh primitive :: _ =>
    match primitive.h.tap with
    | [] => none
    | recipient :: rest =>
      if primitive.m = 1 ∧ rest = [] then some (some (.pkh recipient gift))
      else some (some (.multisig primitive.m (recipient :: rest) gift))
  | _ :: _ => some none

/-- `build-refund-order`. -/
def buildRefundOrder (refund : Nat) (refundLock : Lock) : Option Order := do
  (← orderFromLock refundLock refund)

/-! ### Seeds -/

/-- One order of `allocate-orders`. -/
def allocateOrder : List Order × List Order × Nat → Order → List Order × List Order × Nat
  | (nextOrders, outOrders, rem), ord =>
    if rem = 0 then (ord :: nextOrders, outOrders, rem)
    else
      let giftOut := ord.gift
      let take := min giftOut rem
      let rem := rem - take
      let outOrders := ord.withGift take :: outOrders
      let nextOrders :=
        if take < giftOut then ord.withGift (giftOut - take) :: nextOrders else nextOrders
      (nextOrders, outOrders, rem)

/-- `allocate-orders`: the orders that stay open, what is paid, and what is left of the assets. -/
def allocateOrders (orders : List Order) (assets : Nat) : List Order × List Order × Nat :=
  orders.foldl allocateOrder ([], [], assets)

/-- The data of an output, with its lock if asked for. -/
def outputData (includeData : Bool) (spec : Order) : NoteData :=
  if includeData || spec.isMultisig then
    ZMap.put ∅ (Noun.tas "lock") (.cell (.atom 0) (toNoun spec.lock))
  else ∅

/-- The seed of one output. -/
def seedFromSpec (includeData : Bool) (note : Nnote) (spec : Order) : Option Seed := do
  let lockRoot ← spec.lock.hash
  let parentHash ← note.hash
  return { outputSource := none, lockRoot, noteData := outputData includeData spec,
           gift := spec.gift, parentHash }

/-- The seeds of the outputs, the last one first, and the sum of their gifts. -/
def seedList (includeData : Bool) (specs : List Order) (note : Nnote) :
    Option (List Seed × Nat) :=
  specs.foldlM (fun (seeds, gifts) spec => do
    let seed ← seedFromSpec includeData note spec
    return (seed :: seeds, gifts + spec.gift)) ([], 0)

/-- `seeds-from-specs`: crashes unless the gifts and the fee are the assets of the note. -/
def seedsFromSpecs (includeData : Bool) (specs : List Order) (note : Nnote) (feePortion : Nat) :
    Option Seeds := do
  let (seeds, totalGifts) ← seedList includeData specs note
  guard (note.assets = totalGifts + feePortion)
  return ZSet.gas ∅ seeds

/-! ### Spends -/

/-- `$spend-build-state`. -/
structure SpendBuildState where
  spends : Spends
  fee : Nat
  orders : List Order

/-- What a note pays: the orders that stay open, the outputs with the refund first, and the part of
the fee. -/
def allocateNote (refundLock : Lock) (assets fee : Nat) (orders : List Order) :
    Option (List Order × List Order × Nat) := do
  let (pendingOrders, specs, remainder) := allocateOrders orders assets
  let feePortion := min fee remainder
  let refund := remainder - feePortion
  if refund = 0 then return (pendingOrders, specs, feePortion)
  return (pendingOrders, (← buildRefundOrder refund refundLock) :: specs, feePortion)

/-- The loop of `process-spends-0` and `process-spends-1`. The wallet opens a note, which gives the
spend for its seeds and its fee. -/
def processSpends (includeData : Bool) (unlock : Nnote → Option (Seeds → Nat → Spend))
    (refundLock : Lock) : List Nnote → SpendBuildState → Option SpendBuildState
  | [], state => some state
  | note :: notes, state => do
    let spend ← unlock note
    let (pendingOrders, specs, feePortion) ←
      allocateNote refundLock note.assets state.fee state.orders
    if specs = [] then processSpends includeData unlock refundLock notes state
    else
      let seeds ← seedsFromSpecs includeData specs note feePortion
      guard (seeds ≠ ∅)
      processSpends includeData unlock refundLock notes
        { spends := state.spends.put note.name (spend seeds feePortion)
          fee := state.fee - feePortion
          orders := pendingOrders }

/-- A version 0 note that needs one signature, by a key of the wallet. -/
def unlock0 (pubkey : SchnorrPubkey) : Nnote → Option (Seeds → Nat → Spend)
  | .v0 note =>
    if note.sig.m = 1 ∧ note.sig.pubkeys.has pubkey = true then
      some fun seeds fee => .s0 { signature := ∅, seeds, fee }
    else none
  | .v1 _ => none

/-! ### Lock data -/

/-- The mold of a list. -/
def softList {α : Type} (item : Noun → Option α) : Noun → Option (List α)
  | .atom a => if a = 0 then some [] else none
  | .cell i t => do return (← item i) :: (← softList item t)

/-- The mold of a tree, for its items. -/
def softTree {α : Type} (item : Noun → Option α) : Noun → Option (List α)
  | .atom a => if a = 0 then some [] else none
  | .cell _ (.atom _) => none
  | .cell n (.cell l r) => do return (← item n) :: (← softTree item l) ++ (← softTree item r)

def softHash : Noun → Option Digest
  | .cell (.atom a) (.cell (.atom b) (.cell (.atom c) (.cell (.atom d) (.atom e)))) =>
    some ⟨a, b, c, d, e⟩
  | _ => none

/-- The mold of a `z-set` of hashes, which takes a tree only if `apt` does: it is the tree that the
set of its items has. -/
def softSet (noun : Noun) : Option (ZSet Digest) := do
  let set := ZSet.gas ∅ (← softTree softHash noun)
  guard (toNoun set = noun)
  return set

def softUnit : Noun → Option (Option Nat)
  | .atom 0 => some none
  | .cell (.atom 0) (.atom u) => some (some u)
  | _ => none

def softRange : Noun → Option TimelockRange
  | .cell min max => do return ⟨← softUnit min, ← softUnit max⟩
  | .atom _ => none

/-- The mold of `$lock-primitive`. -/
def softPrimitive : Noun → Option LockPrimitive
  | .cell (.atom tag) noun =>
    if tag = Noun.tas "hax" then (softSet noun).map .hax
    else if tag = Noun.tas "brn" then if noun = .atom 0 then some .brn else none
    else match noun with
      | .atom _ => none
      | .cell p q =>
        if tag = Noun.tas "tim" then do return .tim ⟨← softRange p, ← softRange q⟩
        else if tag = Noun.tas "pkh" then
          match p with
          | .atom m => (softSet q).map fun h => .pkh ⟨m, h⟩
          | .cell _ _ => none
        else none
  | _ => none

/-- `(soft lock-data)`. The head of a spend condition is a cell. -/
def softLock : Noun → Option Lock
  | .cell (.atom 0) (.cell (.cell i j) t) => softList softPrimitive (.cell (.cell i j) t)
  | _ => none

/-! ### Inputs -/

/-- The lock of one key hash. -/
def simpleLock (pkh : Digest) : Lock := [.pkh ⟨1, ZSet.gas ∅ [pkh]⟩]

/-- `pull-lock-inner`: the lock in the data of a note, or the one that its name is made of. -/
def pullLockInner (nd : NoteData) (nn : Nname) (pkh : Digest) :
    Option (Option Lock) :=
  match nd.get (Noun.tas "lock") with
  | some lockNoun => some (softLock lockNoun)
  | none => do
    let coinbaseLock : Lock := [.pkh ⟨1, ZSet.gas ∅ [pkh]⟩, Coinbase.timLp {}]
    if (← nnameFirst (← (simpleLock pkh).hash)) = nn.first then return some (simpleLock pkh)
    if (← nnameFirst (← coinbaseLock.hash)) = nn.first then return some coinbaseLock
    return none

/-- `pull-lock`, for an input: a note without a lock that fits its name crashes the wallet. -/
def pullLock (note : Nnote1) (pkh : Digest) : Option Lock := do
  let lok ← (← pullLockInner note.noteData note.name pkh)
  guard ((← nnameFirst (← lok.hash)) = note.name.first)
  return lok

/-- A version 1 note, with the merkle proof of its lock as the witness. -/
def unlock1 (senderPkh : Digest) : Nnote → Option (Seeds → Nat → Spend)
  | .v0 _ => none
  | .v1 note => do
    let inputLock ← pullLock note senderPkh
    let root ← inputLock.hash
    return fun seeds fee =>
      .s1 { witness := { lmp := ⟨inputLock, 1, ⟨root, []⟩⟩, pkh := ∅, hax := ∅ }, seeds, fee }

/-- `create-spends-0` and `create-spends-1`: crash unless all orders and the fee are paid. -/
def createSpends (includeData : Bool) (unlock : Nnote → Option (Seeds → Nat → Spend))
    (notes : List Nnote) (orders : List Order) (fee : Nat) (refundLock : Lock) : Option Spends := do
  let final ← processSpends includeData unlock refundLock notes { spends := ∅, fee, orders }
  guard (final.orders = [] ∧ final.fee = 0)
  return final.spends

def createSpends0 (includeData : Bool) (notes : List Nnote) (orders : List Order) (fee : Nat)
    (pubkey : SchnorrPubkey) (refundLock : Lock) : Option Spends :=
  createSpends includeData (unlock0 pubkey) notes orders fee refundLock

def createSpends1 (includeData : Bool) (notes : List Nnote) (orders : List Order)
    (fee : Nat) (senderPkh : Digest) (refundLock : Lock) : Option Spends :=
  createSpends includeData (unlock1 senderPkh) notes orders fee refundLock

/-! ### The gate -/

/-- `sort`, by assets, the largest first. The bound on the depth is the length of the list. -/
def sortByAssets : Nat → List Nnote → List Nnote
  | 0, _ => []
  | _, [] => []
  | n + 1, note :: notes =>
    let (larger, others) := notes.partition fun c => note.assets < c.assets
    sortByAssets n larger ++ note :: sortByAssets n others

/-- `multisig-lock`, of one note: its lock data, if that is a lock of several keys. -/
def multisigLock : Nnote → Option Lock
  | .v0 _ => none
  | .v1 note =>
    match (note.noteData.get (Noun.tas "lock")).bind softLock with
    | some [.pkh lp] => if lp.h.wyt = 1 then none else some [.pkh lp]
    | _ => none

/-- The multisig lock of the inputs: that of the first note with one, and crashes unless the notes
from there on have its first name. -/
def sharedMultisigLock : List Nnote → Option (Option Lock)
  | [] => some none
  | note :: notes =>
    match multisigLock note with
    | none => sharedMultisigLock notes
    | some lok => do
      let refFn ← nnameFirst (← lok.hash)
      guard ((note :: notes).all fun note => note.firstName = refFn)
      return some lok

/-- A note of version 0. -/
def isV0 : Nnote → Bool
  | .v0 _ => true
  | .v1 _ => false

/-- The lock that the refund goes to. It has to be given when version 0 notes are spent. -/
def refundLock (notes : List Nnote) (senderPkh : Digest) (refundPkh : Option Digest) :
    Option Lock :=
  if notes.all isV0 then refundPkh.map simpleLock
  else do
    let shared ← sharedMultisigLock notes
    match refundPkh with
    | some pkh => return simpleLock pkh
    | none => return shared.getD (simpleLock senderPkh)

/-- The spends of the sorted notes, before the estimate of the fee. Notes of both versions crash the
wallet. -/
def rawSpends (includeData : Bool) (notes : List Nnote) (orders : List Order) (fee : Nat)
    (senderPubkey : SchnorrPubkey) (senderPkh : Digest) (refundPkh : Option Digest) :
    Option Spends := do
  let refundLock ← refundLock notes senderPkh refundPkh
  if notes.all isV0 then createSpends0 includeData notes orders fee senderPubkey refundLock
  else
    guard (notes.all fun note => !isV0 note)
    createSpends1 includeData notes orders fee senderPkh refundLock

/-! ### The estimate of the fee -/

/-- `map-words`: the leaves of a map, which has one empty branch more than entries. -/
def mapWords (entries keyLeaves valLeaves : Nat) : Nat :=
  entries * (keyLeaves + valLeaves) + (entries + 1)

/-- The signatures that an input asks for. The display has its lock. -/
def numSigsRequired (senderPkh : Digest) : Nnote → Option Nat
  | .v0 note => some note.sig.m
  | .v1 note => do
    let sc ← pullLock note senderPkh
    return sc.foldl (fun acc lp => match lp with | .pkh pkh => acc + pkh.m | _ => acc) 0

/-- `witness-words`. The witness of a version 1 spend has the proof of its lock and nothing else. -/
def witnessWords (numSigs : Nat) : Spend → Option Nat
  | .s0 _ => some (mapWords numSigs 13 16)
  | .s1 sp => do
    guard (sp.witness.lmp ≠ ⟨[], 0, ⟨default, []⟩⟩ ∧ sp.witness.hax = ∅)
    return numOfLeaves (toNoun sp.witness.lmp) + mapWords numSigs 5 (13 + 16)
      + numOfLeaves (.atom 0) + numOfLeaves (toNoun sp.witness.hax)

/-- `spends:estimate-fee`. -/
def estimateFee (senderPkh : Digest) (notes : List Nnote) (spends : Spends) : Option Nat := do
  let bc : BlockchainConstants := {}
  let wordCount ← spends.repM (fun (nam, sp) acc => do
    let note ← notes.find? fun note => note.name = nam
    let words ← witnessWords (← numSigsRequired senderPkh note) sp
    return acc + (words + countSeedWords sp)) 0
  return max (wordCount * bc.baseFee) bc.dataMinFee

/-- The gate of `tx-builder`, for the notes that are spent and the public keys of the signers. -/
def txBuilder (notes : List Nnote) (orders : List Order) (fee : Nat)
    (signerPubkeys : List SchnorrPubkey) (refundPkh : Option Digest) (includeData : Bool) :
    Option Spends := do
  guard (ordersValid orders).toBool
  let senderPubkey ← signerPubkeys.head?
  let senderPkh ← hashHashable senderPubkey.hashable
  let spends ← rawSpends includeData (sortByAssets notes.length notes) orders fee senderPubkey
    senderPkh refundPkh
  let minFee ← estimateFee senderPkh notes spends
  guard (minFee ≤ fee)
  return spends

end Nockchain.Wallet
