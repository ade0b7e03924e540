import Nockchain.Math.Belt
import Nockchain.NounSerde.Codec

/-!
# `Nockchain.P2p.Driver`: what the driver passes on and what it answers

The parts of `driver.rs` that consult the caches: which facts of peers reach the kernel,
and how a request for a block by height is answered. An answer takes three critical
sections, the look into the cache, the peek and the insertion of its result, so the
driver's other work can come between them (`System`).
-/

set_option autoImplicit false

namespace Nockchain.P2p

open Nockchain.Lib Nockchain.Math Nockchain.NounSerde

/-!
## Facts and requests from peers

`messages.rs`: what the driver makes of a noun a peer sent, before the kernel sees it.
A parser can return an error or panic, and the driver treats the two very differently,
so they are kept apart (`Outcome`).

How libp2p reads a peer id from text is a parameter.
-/

/-! ### Hashes as the network driver writes them

`tip5_util.rs`: a noun of five words to base 58 and back. The network driver keys its
caches with these strings. The stack variant differs in where its numbers are stored,
which is left out.
-/

/-- `NockAppError`, as far as parsing a message goes. -/
inductive NockAppError where
  | swordError (e : NounError)
  | nounDecodeError (e : NounDecodeError)
  | base58
  | otherError (message : String)
  | ioError (message : String)
deriving DecidableEq, Repr

/-- What a parser of the driver returns. -/
abbrev Parsed (α : Type) := Outcome NockAppError α

/-- `ubig_to_base58`. -/
def ubigToBase58 (value : Nat) : String := Base58.numeral value

/-- `base58_to_ubig`. -/
def base58ToUbig (value : String) : Parsed Nat :=
  match Base58.decode value with
  | none => .err .base58
  | some bytes => .ok (ofBigEndian bytes)

/-- `tip5_hash_to_base58`. -/
def tip5HashToBase58 (noun : Noun) : Parsed String := do
  let tuple ← (arrayFromNoun u64FromNoun 5 noun).mapErr NockAppError.nounDecodeError
  return ubigToBase58 (basePToDecimal tuple.toList)

/-- `decimal_to_base_p`: what is left of the number after five words is dropped. -/
def decimalToTip5 (value : Nat) : List.Vector UInt64 5 := (decimalToBaseP 5 value).1

/-! ### Nouns of peers -/

/-- `AtomHandle::eq_bytes`. -/
def atomEqBytes (a : Nat) (bytes : List UInt8) : Bool :=
  let atomBytes := asNeBytes a
  if bytes.length > atomBytes.length then false
  else if bytes.length = atomBytes.length then atomBytes == bytes
  else if (atomBytes.drop bytes.length).any (· != 0) then false
  else atomBytes.take bytes.length == bytes

/-- `NounHandle::eq_bytes`. -/
def eqBytes (noun : Noun) (text : String) : Bool :=
  match noun with
  | .atom a => atomEqBytes a (strBytes text)
  | .cell _ _ => false

/-- `as_cell()?`. -/
def getCell (noun : Noun) : Parsed (Noun × Noun) := (asCell noun).mapErr NockAppError.swordError

/-- `as_atom()?.as_u64()?`. -/
def getU64 (noun : Noun) : Parsed UInt64 := do
  let a ← (asAtom noun).mapErr NockAppError.swordError
  (asU64 a).mapErr NockAppError.swordError

/-- The items of `NounHandle::list_iter`, each put through `f`. The iterator panics
where the list ends in another atom than `0`. -/
def listIter {α : Type} (f : Noun → Parsed α) : Noun → Parsed (List α)
  | .atom a => if a = 0 then .ok [] else .panic
  | .cell h t => do
    let x ← f h
    let xs ← listIter f t
    return x :: xs

/-- `NockchainFact`; a slab is its noun. -/
inductive NockchainFact where
  | heardBlock (id : String) (poke : Noun)
  | heardElders (oldest : UInt64) (ids : List String) (poke : Noun)
  | heardTx (id : String) (poke : Noun)
deriving DecidableEq, Repr

/-- `block_id_from_page` and `tx_id_from_raw_tx`: the head of an unversioned noun, and
what follows the version `1`. -/
def idFromVersioned (what : String) (noun : Noun) : Parsed Noun := do
  let (head, tail) ← getCell noun
  match asAtom head with
  | .ok a =>
    let version ← (asU64 a).mapErr NockAppError.swordError
    if version = 1 then
      let (id, _) ← getCell tail
      return id
    else .err (.otherError s!"Unsupported {what} version {version}")
  | _ => return head

def blockIdFromPage (page : Noun) : Parsed Noun := idFromVersioned "page" page

def txIdFromRawTx (rawTx : Noun) : Parsed Noun := idFromVersioned "raw-tx" rawTx

/-- `NockchainFact::from_noun_slab`. -/
def NockchainFact.fromNounSlab (noun : Noun) : Parsed NockchainFact := do
  let poke := Noun.cell (.atom (Noun.tas "fact")) (.cell (.atom 0) noun)
  let (head, tail) ← getCell noun
  if eqBytes head "heard-block" then
    let blockId ← blockIdFromPage tail
    let id ← tip5HashToBase58 blockId
    return .heardBlock id poke
  else if eqBytes head "heard-tx" then
    let txId ← txIdFromRawTx tail
    let id ← tip5HashToBase58 txId
    return .heardTx id poke
  else if eqBytes head "heard-elders" then
    let (oldest, elderIds) ← getCell tail
    let oldest ← getU64 oldest
    let ids ← listIter tip5HashToBase58 elderIds
    return .heardElders oldest ids poke
  else .err (.otherError "Invalid fact head tag")

section Requests

variable {PeerId : Type}

/-- `NockchainDataRequest`; a slab is its noun. -/
inductive NockchainDataRequest (PeerId : Type) where
  | blockByHeight (height : UInt64)
  | eldersById (id : String) (peer : PeerId) (block : Noun)
  | rawTransactionById (id : String) (tx : Noun)
deriving DecidableEq, Repr

/-- `PeerId::from_noun`. -/
def peerIdFromNoun (fromStr : String → Option PeerId) (noun : Noun) : Parsed PeerId := do
  let a ← (asAtom noun).mapErr NockAppError.swordError
  match intoString a with
  | none => .err (.otherError "invalid utf-8")
  | some text =>
    match fromStr text with
    | some peer => return peer
    | none => .err (.otherError "Failed to parse PeerId from noun")

/-- The closure of `NockchainDataRequest::from_noun`. -/
def NockchainDataRequest.parse (fromStr : String → Option PeerId) (noun : Noun) :
    Parsed (NockchainDataRequest PeerId) := do
  let (tag, kind) ← getCell noun
  if !eqBytes tag "request" then .err (.otherError "Missing %request tag")
  else
    let (kind, data) ← getCell kind
    if eqBytes kind "block" then
      let (block, data) ← getCell data
      if eqBytes block "by-height" then
        let height ← getU64 data
        return .blockByHeight height
      else if eqBytes block "elders" then
        let (blockId, peer) ← getCell data
        let id ← tip5HashToBase58 blockId
        let peer ← peerIdFromNoun fromStr peer
        return .eldersById id peer blockId
      else .err (.otherError "Failed to parse EldersById message")
    else if eqBytes kind "raw-tx" then
      let (_, txId) ← getCell data
      let id ← tip5HashToBase58 txId
      return .rawTransactionById id txId
    else .err (.otherError "Failed to parse RawTransaction message")

/-- `NockchainDataRequest::from_noun`: every error becomes a bad request. -/
def NockchainDataRequest.fromNoun (fromStr : String → Option PeerId) (noun : Noun) :
    Parsed (NockchainDataRequest PeerId) :=
  (NockchainDataRequest.parse fromStr noun).mapErr fun _ => .ioError "bad request"

end Requests

/-! ### What the driver remembers by id

The caches of `P2PState` and what the driver does to them. Blocks and transactions are
remembered under the base 58 text of their ids, so a key stands for every id with that
text.
-/

/-- `P2PState`, the caches. -/
structure P2PState where
  seenBlocks : Finset String := ∅
  seenTxs : Finset String := ∅
  blockCache : Map UInt64 Noun := ∅
  txCache : Map String Noun := ∅
  eldersCache : Map String Noun := ∅
  eldersNegativeCache : Finset String := ∅
  firstNegative : UInt64 := 0

/-- What the driver does to the caches that are keyed by an id; the id is the noun the
key is made from. -/
inductive CacheOp where
  | seenBlock (id : Noun)
  | seenTx (id : Noun)
  | cacheTx (id : Noun) (slab : Noun)
  | cacheElders (id : Noun) (slab : Noun)
  | noElders (id : Noun)
  | forgetTx (id : Noun)
  | clearSeenTxs
  | clearElders

/-- The id an operation is about. -/
def CacheOp.id? : CacheOp → Option Noun
  | .seenBlock id => some id
  | .seenTx id => some id
  | .cacheTx id _ => some id
  | .cacheElders id _ => some id
  | .noElders id => some id
  | .forgetTx id => some id
  | .clearSeenTxs => none
  | .clearElders => none

/-- Go on with the key of an id. Without one nothing happens. -/
def P2PState.withKey (state : P2PState) (id : Noun) (f : String → P2PState) : P2PState :=
  match tip5HashToBase58 id with
  | .ok key => f key
  | _ => state

/-- One operation. -/
def P2PState.apply (state : P2PState) : CacheOp → P2PState
  | .seenBlock id => state.withKey id fun key =>
    { state with seenBlocks := insert key state.seenBlocks }
  | .seenTx id => state.withKey id fun key =>
    { state with seenTxs := insert key state.seenTxs }
  | .cacheTx id slab => state.withKey id fun key =>
    { state with txCache := state.txCache.insert key slab }
  | .cacheElders id slab => state.withKey id fun key =>
    { state with eldersCache := state.eldersCache.insert key slab }
  | .noElders id => state.withKey id fun key =>
    { state with eldersNegativeCache := insert key state.eldersNegativeCache }
  | .forgetTx id => state.withKey id fun key =>
    { state with seenTxs := state.seenTxs.erase key }
  | .clearSeenTxs => { state with seenTxs := ∅ }
  | .clearElders => { state with blockCache := ∅, eldersCache := ∅, eldersNegativeCache := ∅ }

/-! ### Seen facts and requests -/

/-- `P2PState`, with what the seen effects need. -/
structure Driver extends P2PState where
  seenElders : Finset String := ∅
  seenTxClearInterval : UInt64
  lastTxCacheClearHeight : UInt64 := 0

/-- The effects that change what has been seen: `%seen`, and `%request` of a raw
transaction by id. The ids are their keys. -/
inductive SeenEffect where
  | block (id : String) (height : Option UInt64)
  | tx (id : String)
  | requestRawTx (id : String)
deriving DecidableEq

namespace Driver

/-- `handle_effect`, for these. -/
def handleEffect (s : Driver) : SeenEffect → Driver
  | .block id height =>
    let s := { s with seenBlocks := insert id s.seenBlocks }
    match height with
    | none => s
    | some blockHeight =>
      if s.firstNegative ≤ blockHeight then
        let s := { s with firstNegative := blockHeight + 1 }
        if s.lastTxCacheClearHeight + s.seenTxClearInterval ≤ blockHeight then
          { s with seenTxs := ∅, lastTxCacheClearHeight := blockHeight }
        else s
      else s
  | .tx id => { s with seenTxs := insert id s.seenTxs }
  | .requestRawTx id => { s with seenTxs := s.seenTxs.erase id }

/-- Whether a gossiped fact is passed to the kernel. -/
def gossipEnabled (s : Driver) : NockchainFact → Bool
  | .heardBlock id _ => id ∉ s.seenBlocks
  | .heardTx id _ => id ∉ s.seenTxs
  | .heardElders _ _ _ => true

/-- Whether a fact in a response is passed to the kernel. Elders are seen by this. -/
def responseEnabled (s : Driver) : NockchainFact → Bool × Driver
  | .heardBlock id _ => (id ∉ s.seenBlocks, s)
  | .heardTx id _ => (id ∉ s.seenBlocks, s)
  | .heardElders _ elders _ =>
    match elders.head? with
    | none => (true, s)
    | some head =>
      if head ∈ s.seenElders then (false, s)
      else (true, { s with seenElders := insert head s.seenElders })

end Driver

/-! ### Blocks by height -/

/-- `CacheResponse`. -/
inductive CacheResponse where
  | cached (slab : Noun)
  | negativeCached
  | notCached

/-- `check_cache`, for a block by height. -/
def P2PState.checkCache (s : P2PState) (height : UInt64) : CacheResponse :=
  if s.firstNegative ≤ height then .negativeCached
  else
    match s.blockCache.lookup height with
    | some slab => .cached slab
    | none => .notCached

/-- A request for a block by height that was not found in the cache: the kernel is still to be
asked, the result is still to be entered, or the request is answered. -/
inductive Request where
  | missed (height : UInt64)
  | peeked (height : UInt64) (block : Noun)
  | answered

/-- The driver, the blocks that a peek finds in the kernel, and the requests that have missed the
cache, in the order in which they did. -/
structure System where
  driver : Driver
  kernel : UInt64 → Option Noun
  requests : List Request := []

/-- The atomic steps: a poke of the kernel, a `%gossip` effect for a heard block, a seen
effect, and the three of a request. -/
inductive Step where
  | poke (kernel : UInt64 → Option Noun)
  | gossip
  | effect (e : SeenEffect)
  | check (height : UInt64)
  | peek (i : Nat)
  | insert (i : Nat)

namespace System

def step (s : System) : Step → System
  | .poke kernel => { s with kernel }
  | .gossip => { s with driver.toP2PState := s.driver.apply .clearElders }
  | .effect e => { s with driver := s.driver.handleEffect e }
  | .check height =>
    match s.driver.checkCache height with
    | .notCached => { s with requests := s.requests ++ [.missed height] }
    | _ => s
  | .peek i =>
    match s.requests[i]? with
    | some (.missed height) =>
      match s.kernel height with
      | some block => { s with requests := s.requests.set i (.peeked height block) }
      | none => { s with requests := s.requests.set i .answered }
    | _ => s
  | .insert i =>
    match s.requests[i]? with
    | some (.peeked height block) =>
      { s with
        driver.blockCache := s.driver.blockCache.insert height block
        requests := s.requests.set i .answered }
    | _ => s

/-- The block that a step answers a request with, and its height. -/
def answer (s : System) : Step → Option (UInt64 × Noun)
  | .check height =>
    match s.driver.checkCache height with
    | .cached block => some (height, block)
    | _ => none
  | .insert i =>
    match s.requests[i]? with
    | some (.peeked height block) => some (height, block)
    | _ => none
  | _ => none

/-- The steps in a row. -/
def run (s : System) (σ : List Step) : System := σ.foldl step s

end System

end Nockchain.P2p
