import Nockchain.Lib.Fold
import Nockchain.Proofs.NounSerde.Atoms
import Nockchain.Proofs.Vm.Address

/-!
# `Nockchain.Proofs.NounSerde.Settles`: the law of a codec, and how laws compose

The law of one codec is `Settles`: every value it decodes is of a form that decoding
keeps, and values of that form come back. It says nothing about the other values, so
it composes: the law of a list, an array, a map, a set or a result follows from the
laws of its parts (`Settles.vec`, `Settles.map`, …). Which form is kept is decided at
the leaves: text without trailing NULs (`settles_string`), byte strings that fill their
words (`settles_bytes`).

A map or set is read back from its tree in preorder (`traverseTree_buildTree`), so the
order it was iterated in does not matter.
-/

set_option autoImplicit false

namespace Nockchain.NounSerde

open Nockchain.Lib List
open Outcome (bind_eq_ok mapErr pure_eq ok_bind)

/-- Decoding gives only values with `kept`, and values with `kept` come back. -/
structure Settles {α : Type} (enc : α → Option Noun) (dec : Noun → Decoded α)
    (kept : α → Prop) : Prop where
  kept_of_ok : ∀ {n x}, dec n = .ok x → kept x
  ok_of_kept : ∀ {x n}, kept x → enc x = some n → dec n = .ok x

/-! ### Numbers, text and bytes -/

theorem asU64_toNat (x : UInt64) : asU64 x.toNat = .ok x := by
  rw [asU64, if_pos x.toNat_lt, UInt64.ofNat_toNat]

theorem u64FromNoun_u64ToNoun {x : UInt64} {n : Noun} (h : u64ToNoun x = some n) :
    u64FromNoun n = .ok x := by
  obtain rfl : Noun.atom x.toNat = n := by simpa [u64ToNoun] using h
  simp [u64FromNoun, asAtom, asU64_toNat, mapErr]

theorem settles_u64 : Settles u64ToNoun u64FromNoun fun _ => True :=
  ⟨fun _ => trivial, fun _ h => u64FromNoun_u64ToNoun h⟩

theorem settles_u32 : Settles u32ToNoun u32FromNoun fun _ => True := by
  refine ⟨fun _ => trivial, ?_⟩
  intro x n _ h
  obtain rfl : Noun.atom x.toUInt64.toNat = n := by simpa [u32ToNoun] using h
  simp only [u32FromNoun, asAtom, asU64_toNat, mapErr, ok_bind, pure_eq,
    UInt32.toUInt32_toUInt64]

theorem settles_usize : Settles usizeToNoun usizeFromNoun fun _ => True := by
  refine ⟨fun _ => trivial, ?_⟩
  intro x n _ h
  rw [usizeFromNoun, u64FromNoun_u64ToNoun h]
  rfl

theorem settles_bool : Settles boolToNoun boolFromNoun fun _ => True := by
  refine ⟨fun _ => trivial, ?_⟩
  intro x n _ h
  obtain rfl : Noun.atom (if x then 0 else 1) = n := by simpa [boolToNoun] using h
  cases x <;> rfl

theorem settles_string : Settles stringToNoun stringFromNoun fun s => trimEndNul s = s := by
  constructor
  · intro n s h
    cases n with
    | cell _ _ => simp [stringFromNoun, asAtom] at h
    | atom a =>
      simp only [stringFromNoun, asAtom] at h
      split at h
      case h_1 t ht =>
        obtain rfl : t = s := by simpa using h
        exact trimEndNul_of_intoString ht
      case h_2 => simp at h
  · intro s n hs h
    rw [stringToNoun, Option.map_eq_some_iff] at h
    obtain ⟨a, ha, rfl⟩ := h
    simp [stringFromNoun, asAtom, intoString_makeTas hs ha]

theorem settles_bytes :
    Settles bytesToNoun bytesFromNoun fun b => asNeBytes (ofLittleEndian b.data) = b.data := by
  constructor
  · intro n b h
    cases n with
    | cell _ _ => simp [bytesFromNoun, asAtom, mapErr] at h
    | atom a =>
      obtain rfl : (⟨asNeBytes a⟩ : Bytes) = b := by
        simpa [bytesFromNoun, asAtom, mapErr] using h
      simp
  · intro b n hb h
    rw [bytesToNoun, fromBytes] at h
    split_ifs at h with hnil
    · simp at h
    obtain rfl : Noun.atom (ofLittleEndian b.data) = n := by simpa using h
    simp [bytesFromNoun, asAtom, mapErr, hb]

/-! ### Sequences -/

namespace Settles

variable {α β : Type} {enc : α → Option Noun} {dec : Noun → Decoded α} {kept : α → Prop}

/-- An option is zero, or a pair of zero and the value. -/
theorem option (h : Settles enc dec kept) :
    Settles (optionToNoun enc) (optionFromNoun dec) fun x => ∀ y ∈ x, kept y := by
  constructor
  · intro n x hx y hy
    obtain rfl : x = some y := by simpa using hy
    cases n with
    | atom a =>
      simp only [optionFromNoun] at hx
      split at hx
      · split_ifs at hx
        simp at hx
      · simp at hx
    | cell head tail =>
      simp only [optionFromNoun, bind_eq_ok] at hx
      obtain ⟨_, -, _, -, hx⟩ := hx
      split_ifs at hx
      simp only [bind_eq_ok] at hx
      obtain ⟨z, hz, hzy⟩ := hx
      obtain rfl : z = y := by simpa using hzy
      exact h.kept_of_ok hz
  · intro x n hx henc
    cases x with
    | none =>
      obtain rfl : Noun.atom 0 = n := by simpa [optionToNoun] using henc
      rfl
    | some y =>
      simp only [optionToNoun, Option.map_eq_some_iff] at henc
      obtain ⟨m, hm, rfl⟩ := henc
      have hy := h.ok_of_kept (hx y rfl) hm
      simp [optionFromNoun, asAtom, asU64, mapErr, hy]

/-- A list comes back if each element does. -/
theorem vec (h : Settles enc dec kept) :
    Settles (vecToNoun enc) (vecFromNoun dec) fun xs => ∀ x ∈ xs, kept x := by
  constructor
  · intro n
    induction n with
    | atom a =>
      intro xs hxs
      simp only [vecFromNoun] at hxs
      split_ifs at hxs
      obtain rfl : [] = xs := by simpa using hxs
      simp
    | cell head tail _ ih =>
      intro xs hxs
      simp only [vecFromNoun, bind_eq_ok, pure_eq, Outcome.ok.injEq] at hxs
      obtain ⟨y, hy, ys, hys, rfl⟩ := hxs
      have hrest := ih hys
      intro x hx
      rcases mem_cons.1 hx with rfl | hx
      · exact h.kept_of_ok hy
      · exact hrest x hx
  · intro xs
    induction xs with
    | nil =>
      intro n _ henc
      obtain rfl : Noun.atom 0 = n := by simpa [vecToNoun] using henc
      rfl
    | cons x xs ih =>
      intro n hkept henc
      simp only [vecToNoun, bind_eq_some, pure_eq_some] at henc
      obtain ⟨a, ha, b, hb, rfl⟩ := henc
      have hx := h.ok_of_kept (hkept x (by simp)) ha
      have hxs := ih (fun y hy => hkept y (by simp [hy])) hb
      simp [vecFromNoun, hx, hxs]

end Settles

/-! ### Arrays -/

namespace Settles

variable {α : Type} {enc : α → Option Noun} {dec : Noun → Decoded α} {kept : α → Prop}

/-- By induction on the length. -/
theorem array_kept_of_ok (h : Settles enc dec kept) : ∀ (k : Nat) {n : Noun} {xs : List.Vector α k},
    arrayFromNoun dec k n = .ok xs → ∀ x ∈ xs.toList, kept x := by
  intro k
  induction k with
  | zero => intro n xs _ x hx; simp [List.Vector.eq_nil xs] at hx
  | succ k ih =>
    intro n xs hxs x hx
    cases k with
    | zero =>
      simp only [arrayFromNoun, bind_eq_ok, pure_eq, Outcome.ok.injEq] at hxs
      obtain ⟨y, hy, rfl⟩ := hxs
      obtain rfl : x = y := by simpa using hx
      exact h.kept_of_ok hy
    | succ k =>
      cases n with
      | atom a => simp [arrayFromNoun] at hxs
      | cell head tail =>
        simp only [arrayFromNoun, bind_eq_ok, pure_eq, Outcome.ok.injEq] at hxs
        obtain ⟨y, hy, ys, hys, rfl⟩ := hxs
        rcases mem_cons.1 hx with rfl | hx
        · exact h.kept_of_ok hy
        · exact ih hys x hx

/-- By induction on the length, with the last element in place of a terminator. -/
theorem array_ok_of_kept (h : Settles enc dec kept) : ∀ (k : Nat) {xs : List.Vector α k} {n : Noun},
    (∀ x ∈ xs.toList, kept x) → arrayToNoun enc xs.toList = some n →
    arrayFromNoun dec k n = .ok xs := by
  intro k
  induction k with
  | zero => intro xs n _ _; simp [arrayFromNoun, List.Vector.eq_nil xs]
  | succ k ih =>
    intro xs n hkept henc
    obtain ⟨x, ys, rfl⟩ := xs.exists_eq_cons
    have hx : kept x := hkept x (by simp)
    cases k with
    | zero =>
      obtain rfl := List.Vector.eq_nil ys
      have hdec := h.ok_of_kept hx (by simpa [arrayToNoun] using henc)
      simp [arrayFromNoun, hdec]
    | succ k =>
      obtain ⟨y, zs, rfl⟩ := ys.exists_eq_cons
      simp only [List.Vector.toList_cons, arrayToNoun, bind_eq_some, pure_eq_some] at henc
      obtain ⟨a, ha, b, hb, rfl⟩ := henc
      have hdec := h.ok_of_kept hx ha
      have htail : arrayToNoun enc (y ::ᵥ zs).toList = some b := by simpa using hb
      have hrest := ih (fun z hz => hkept z (by rw [List.Vector.toList_cons]; exact .tail _ hz)) htail
      simp [arrayFromNoun, hdec, hrest]

theorem array (h : Settles enc dec kept) (k : Nat) :
    Settles (fun xs : List.Vector α k => arrayToNoun enc xs.toList) (arrayFromNoun dec k)
      fun xs => ∀ x ∈ xs.toList, kept x :=
  ⟨fun hxs => h.array_kept_of_ok k hxs, fun hkept henc => h.array_ok_of_kept k hkept henc⟩

end Settles

theorem settles_vecU8 : Settles vecU8ToNoun vecU8FromNoun fun _ => True := by
  refine ⟨fun _ => trivial, ?_⟩
  intro xs n _ h
  have hxs := settles_u64.vec.ok_of_kept (by simp) h
  simp only [vecU8FromNoun, hxs, ok_bind, pure_eq, map_map]
  exact congrArg _ ((map_congr_left fun x _ => UInt8.toUInt8_toUInt64 x).trans (map_id xs))

/-! ### Tuples -/

/-- The first `m` heads down the tails of a noun, and the tail after them. -/
def spine : Nat → Noun → Option (List Noun)
  | 0, noun => some [noun]
  | m + 1, .cell h t => (spine m t).map (h :: ·)
  | _ + 1, .atom _ => none

theorem axisBits_ones (m : Nat) : Noun.axisBits (2 ^ (m + 1) - 1) = replicate m true := by
  induction m with
  | zero => rfl
  | succ m ih =>
    have hpow : 2 ^ (m + 2) = 2 * 2 ^ (m + 1) := pow_succ' 2 (m + 1)
    have hpos := Nat.two_pow_pos (m + 1)
    have hhalf : (2 ^ (m + 2) - 1) / 2 = 2 ^ (m + 1) - 1 := by omega
    have hodd : (2 ^ (m + 2) - 1) % 2 = 1 := by omega
    rw [Vm.axisBits_step (by omega), hhalf, ih, hodd, replicate_succ']
    rfl

theorem axisBits_ones_zero (m : Nat) :
    Noun.axisBits (2 ^ (m + 2) - 2) = replicate m true ++ [false] := by
  have hpow : 2 ^ (m + 2) = 2 * 2 ^ (m + 1) := pow_succ' 2 (m + 1)
  have hpos : 2 ≤ 2 ^ (m + 1) := Nat.le_self_pow (by omega) 2
  have hhalf : (2 ^ (m + 2) - 2) / 2 = 2 ^ (m + 1) - 1 := by omega
  have heven : (2 ^ (m + 2) - 2) % 2 = 0 := by omega
  rw [Vm.axisBits_step (by omega), hhalf, axisBits_ones, heven]
  rfl

/-- The paths to the components: ever further down the tails, and there to the head. -/
theorem mapM_walk_spine : ∀ (m : Nat) (noun : Noun),
    ((range m).map (fun i => replicate i true ++ [false])
      ++ [replicate m true]).mapM (Noun.walk · noun) = spine m noun := by
  intro m
  induction m with
  | zero => intro noun; rfl
  | succ m ih =>
    intro noun
    have hpaths : (range (m + 1)).map (fun i => replicate i true ++ [false])
          ++ [replicate (m + 1) true]
        = [false] :: ((range m).map (fun i => replicate i true ++ [false])
          ++ [replicate m true]).map (true :: ·) := by
      simp [range_succ_eq_map, replicate_succ]
    rw [hpaths, mapM_cons, mapM_map]
    cases noun with
    | atom a => rfl
    | cell h t =>
      have htail := ih t
      show ((mapM (fun p => Noun.walk p t) _).bind fun parts => some (h :: parts)) = _
      rw [htail, spine]
      cases spine m t <;> rfl

/-- The slots of a tuple are the noun's spine. -/
theorem mapM_slot_tupleAxes (m : Nat) (noun : Noun) :
    (tupleAxes (m + 1)).mapM noun.slot = spine m noun := by
  have haxes : (tupleAxes (m + 1)).map Noun.axisBits
      = (range m).map (fun i => replicate i true ++ [false]) ++ [replicate m true] := by
    simp [tupleAxes, axisBits_ones, axisBits_ones_zero, Function.comp_def]
  have hslot : ∀ axis ∈ tupleAxes (m + 1), noun.slot axis = Noun.walk (Noun.axisBits axis) noun := by
    intro axis haxis
    refine if_neg ?_
    rcases mem_append.1 haxis with haxis | haxis
    · obtain ⟨i, -, rfl⟩ := mem_map.1 haxis
      have := Nat.pow_le_pow_right (n := 2) (by omega) (show 2 ≤ i + 2 by omega)
      omega
    · have := Nat.two_pow_pos m
      rw [mem_singleton.1 haxis]
      omega
  rw [← mapM_walk_spine, ← haxes, mapM_map]
  exact Lib.mapM_congr hslot

theorem tupleSlots_eq_ok {m : Nat} {noun : Noun} {parts : List Noun} :
    tupleSlots (m + 2) noun = .ok parts ↔ spine (m + 1) noun = some parts := by
  cases noun with
  | atom a => simp [tupleSlots, asCell, spine]
  | cell h t =>
    simp only [tupleSlots, asCell, mapM_slot_tupleAxes]
    cases spine (m + 1) (.cell h t) <;> simp

theorem tupleSlots_ne_panic (n : Nat) (noun : Noun) : tupleSlots n noun ≠ .panic := by
  unfold tupleSlots
  split <;> (try split) <;> simp

theorem Fields.exists_arity (fs : Fields) : ∃ m, fs.arity = m + 2 := by
  cases fs with
  | pair t u => exact ⟨0, rfl⟩
  | cons t fs =>
    cases fs with
    | pair u v => exact ⟨1, rfl⟩
    | cons u fs => exact ⟨fs.arity, rfl⟩

theorem lastComponents_eq_ok {α β : Type} {first : Noun → Decoded α} {second : Noun → Decoded β}
    {parts : List Noun} {x : α × β} : lastComponents first second parts = .ok x ↔
      ∃ a b, parts = [a, b] ∧ first a = .ok x.1 ∧ second b = .ok x.2 := by
  rcases parts with - | ⟨a, - | ⟨b, - | ⟨c, parts⟩⟩⟩
  · simp [lastComponents]
  · simp [lastComponents]
  · obtain ⟨y, z⟩ := x
    simp [lastComponents, bind_eq_ok]
  · simp [lastComponents]

theorem nextComponent_eq_ok {α β : Type} {first : Noun → Decoded α} {rest : List Noun → Decoded β}
    {parts : List Noun} {x : α × β} : nextComponent first rest parts = .ok x ↔
      ∃ a parts', parts = a :: parts' ∧ first a = .ok x.1 ∧ rest parts' = .ok x.2 := by
  rcases parts with - | ⟨a, parts⟩
  · simp [nextComponent]
  · obtain ⟨y, z⟩ := x
    simp [nextComponent, bind_eq_ok]

theorem pairToNoun_eq_some {α β : Type} {first : α → Option Noun} {rest : β → Option Noun}
    {x : α × β} {n : Noun} : pairToNoun first rest x = some n ↔
      ∃ a b, first x.1 = some a ∧ rest x.2 = some b ∧ .cell a b = n := by
  simp [pairToNoun, Option.bind_eq_some_iff]

/-! ### Trees -/

/-- The entries in the order `traverse_tree` meets them. -/
def preorder {α : Type} (xs : List α) : List α :=
  if h : xs = [] then []
  else
    have hmid : xs.length / 2 < xs.length :=
      Nat.div_lt_self (length_pos_iff.2 h) Nat.one_lt_two
    xs[xs.length / 2] :: (preorder (xs.take (xs.length / 2))
      ++ preorder (xs.drop (xs.length / 2 + 1)))
termination_by xs.length
decreasing_by
  · rw [length_take]; omega
  · rw [length_drop]; omega

theorem preorder_perm {α : Type} (xs : List α) : (preorder xs).Perm xs := by
  fun_induction preorder with
  | case1 => exact .nil
  | case2 xs h hmid ihl ihr =>
    have hsplit : xs.take (xs.length / 2) ++ xs[xs.length / 2] :: xs.drop (xs.length / 2 + 1) = xs := by
      rw [getElem_cons_drop, take_append_drop]
    refine ((ihl.append ihr).cons _).trans ?_
    exact perm_middle.symm.trans (List.Perm.of_eq hsplit)

theorem preorder_map {α β : Type} (f : α → β) (xs : List α) :
    preorder (xs.map f) = (preorder xs).map f := by
  fun_induction preorder xs with
  | case1 => simp [preorder]
  | case2 xs h hmid ihl ihr =>
    rw [preorder, dif_neg (by simpa using h)]
    simp [ihl, ihr, ← map_take, ← map_drop]

/-- Reading back a built tree visits its nodes in preorder. -/
theorem traverseTree_buildTree {α : Type} (node : Noun → α → Decoded α) (nodes : List Noun) :
    ∀ acc, traverseTree node (buildTree nodes) acc
      = (preorder nodes).foldlM (fun acc n => node n acc) acc := by
  fun_induction preorder nodes with
  | case1 =>
    intro acc
    rw [buildTree]
    rfl
  | case2 nodes h hmid ihl ihr =>
    intro acc
    rw [buildTree, dif_neg h]
    simp [traverseTree, ihl, ihr]

/-! ### Inserting entries -/

section Insert

variable {α β : Type} [DecidableEq α]

/-- One entry into a map. -/
def addEntry (e : (_ : α) × β) (m : Map α β) : Map α β := m.insert e.1 e.2

theorem mem_of_lookup_foldl_insert (xs : List ((_ : α) × β)) : ∀ {m : Map α β} {k : α} {v : β},
    (xs.foldl (fun acc e => addEntry e acc) m).lookup k = some v →
    ⟨k, v⟩ ∈ xs ∨ m.lookup k = some v := by
  induction xs with
  | nil => intro m k v h; exact .inr h
  | cons e xs ih =>
    intro m k v h
    rcases ih (m := addEntry e m) h with hmem | hlookup
    · exact .inl (.tail _ hmem)
    by_cases hk : k = e.1
    · subst hk
      rw [addEntry, Finmap.lookup_insert, Option.some.injEq] at hlookup
      subst hlookup
      exact .inl (.head _)
    · rw [addEntry, Finmap.lookup_insert_of_ne _ hk] at hlookup
      exact .inr hlookup

theorem lookup_foldl_insert_of_notMem {xs : List ((_ : α) × β)} {k : α} (hk : k ∉ xs.keys) :
    ∀ m : Map α β, (xs.foldl (fun acc e => addEntry e acc) m).lookup k = m.lookup k := by
  induction xs with
  | nil => intro m; rfl
  | cons e xs ih =>
    intro m
    rw [keys_cons, mem_cons, not_or] at hk
    rw [foldl_cons, ih hk.2, addEntry, Finmap.lookup_insert_of_ne _ hk.1]

/-- Entries with distinct keys are all found again. -/
theorem lookup_foldl_insert {xs : List ((_ : α) × β)} (hxs : xs.NodupKeys) {k : α} {v : β}
    (hmem : ⟨k, v⟩ ∈ xs) :
    ∀ m : Map α β, (xs.foldl (fun acc e => addEntry e acc) m).lookup k = some v := by
  induction xs with
  | nil => simp at hmem
  | cons e xs ih =>
    intro m
    obtain ⟨hnotMem, hrest⟩ := nodupKeys_cons.1 hxs
    rcases mem_cons.1 hmem with rfl | hmem
    · rw [foldl_cons, lookup_foldl_insert_of_notMem hnotMem, addEntry, Finmap.lookup_insert]
    · exact ih hrest hmem _

end Insert

/-- The tags of a result are atoms that read back as text. -/
theorem exists_makeTas_tag : ∀ s ∈ ["ok", "err"],
    ∃ a, makeTas s = some a ∧ intoString a = some s := by
  intro s hs
  have htrim : trimEndNul s = s := by
    rcases mem_pair.1 hs with rfl | rfl <;> decide +kernel
  have hne : strBytes s ≠ [] := by
    rcases mem_pair.1 hs with rfl | rfl <;> decide +kernel
  have htas : makeTas s = some (ofLittleEndian (strBytes s)) := if_neg hne
  exact ⟨_, htas, intoString_makeTas htrim htas⟩

/-- A property of either side of a result. -/
def onResult {α β : Type} (p : α → Prop) (q : β → Prop) : Except β α → Prop
  | .ok v => p v
  | .error e => q e

namespace Settles

section

variable {α σ : Type} {enc : α → Option Noun} {dec : Noun → Decoded α} {kept : α → Prop}
  (add : α → σ → σ)

/-- What a tree of entries decodes to is put together from entries the codec keeps. -/
theorem exists_of_traverseTree (h : Settles enc dec kept) : ∀ {n : Noun} {acc result : σ},
    traverseTree (fun n acc => dec n >>= fun x => .ok (add x acc)) n acc = .ok result →
    ∃ xs : List α, (∀ x ∈ xs, kept x) ∧ result = xs.foldl (fun acc x => add x acc) acc := by
  intro n acc
  fun_induction traverseTree (fun n acc => dec n >>= fun x => .ok (add x acc)) n acc with
  | case1 a acc =>
    intro result hresult
    simp only [bind_eq_ok] at hresult
    obtain ⟨x, -, hx⟩ := hresult
    split_ifs at hx
    exact ⟨[], by simp, by simpa using hx.symm⟩
  | case2 n l r acc ihl ihr =>
    intro result hresult
    simp only [bind_eq_ok] at hresult
    obtain ⟨acc1, ⟨x, hx, hacc1⟩, acc2, hl, hr⟩ := hresult
    obtain ⟨ls, hls, rfl⟩ := ihl _ hl
    obtain ⟨rs, hrs, rfl⟩ := ihr _ hr
    obtain rfl : add x acc = acc1 := by simpa using hacc1
    refine ⟨x :: (ls ++ rs), ?_, by simp [foldl_append]⟩
    intro y hy
    rcases mem_cons.1 hy with rfl | hy
    · exact h.kept_of_ok hx
    · rcases mem_append.1 hy with hy | hy
      · exact hls y hy
      · exact hrs y hy
  | case3 n a acc =>
    intro result hresult
    simp [bind_eq_ok] at hresult

/-- The tree of kept entries is read back entry by entry. -/
theorem traverseTree_of_kept (h : Settles enc dec kept) {xs : List α} {nodes : List Noun}
    (hkept : ∀ x ∈ xs, kept x) (hnodes : xs.mapM enc = some nodes) (acc : σ) :
    traverseTree (fun n acc => dec n >>= fun x => .ok (add x acc)) (buildTree nodes) acc
      = .ok ((preorder xs).foldl (fun acc x => add x acc) acc) := by
  have hdec : nodes.map dec = xs.map .ok := by
    have hpairs := (forall₂_mem (forall₂_of_mapM hnodes)).imp
      fun x n hxn => h.ok_of_kept (hkept x hxn.2.1) hxn.1
    exact (map_eq_of_forall₂ hpairs fun _ _ hxn => hxn.symm).symm
  have hpre : (preorder nodes).map dec = (preorder xs).map .ok := by
    rw [← preorder_map, hdec, preorder_map]
  have hfold : ∀ (l : List Noun) (ys : List α) (acc : σ), l.map dec = ys.map .ok →
      l.foldlM (fun acc n => dec n >>= fun x => (.ok (add x acc) : Decoded σ)) acc
        = .ok (ys.foldl (fun acc x => add x acc) acc) := by
    intro l
    induction l with
    | nil =>
      intro ys acc hl
      obtain rfl : ys = [] := by simpa using hl.symm
      rfl
    | cons n l ih =>
      intro ys acc hl
      obtain ⟨y, ys, rfl⟩ := exists_cons_of_ne_nil (l := ys) (by rintro rfl; simp at hl)
      simp only [map_cons, cons.injEq] at hl
      simp [hl.1, ih ys _ hl.2]
  rw [traverseTree_buildTree]
  exact hfold _ _ _ hpre

end

variable {α β : Type} {encα : α → Option Noun} {decα : Noun → Decoded α} {keptα : α → Prop}
  {encβ : β → Option Noun} {decβ : Noun → Decoded β} {keptβ : β → Prop}

/-- A set comes back whatever the order in which its elements are written. -/
theorem hashSet [DecidableEq α] (h : Settles encα decα keptα) (it : Iteration) :
    Settles (hashSetToNoun it encα) (hashSetFromNoun decα) fun s => ∀ x ∈ s, keptα x := by
  have hinsert : ∀ (xs : List α) (s : Finset α),
      xs.foldl (fun acc x => insert x acc) s = s ∪ xs.toFinset := by
    intro xs
    induction xs with
    | nil => intro s; simp
    | cons x xs ih => intro s; simp [ih, Finset.insert_union]
  constructor
  · intro n s hs x hx
    obtain ⟨xs, hxs, rfl⟩ := h.exists_of_traverseTree insert hs
    rw [hinsert] at hx
    exact hxs x (by simpa using hx)
  · intro s n hkept henc
    rw [hashSetToNoun, Option.map_eq_some_iff] at henc
    obtain ⟨nodes, hnodes, rfl⟩ := henc
    have hmem : ∀ x, x ∈ it.order s.val ↔ x ∈ s := by
      intro x
      rw [← Multiset.mem_coe, it.coe_order, Finset.mem_val]
    have hread := h.traverseTree_of_kept insert (fun x hx => hkept x ((hmem x).1 hx)) hnodes
      (∅ : Finset α)
    rw [hinsert, toFinset_eq_of_perm _ _ (preorder_perm _), Finset.empty_union] at hread
    refine hread.trans (congrArg _ (Finset.ext fun x => ?_))
    rw [mem_toFinset, hmem]

variable (hα : Settles encα decα keptα) (hβ : Settles encβ decβ keptβ)
include hα hβ

theorem entry (notPair : NounDecodeError) :
    Settles (entryToNoun encα encβ) (fun n => do
      let (k, v) ← (asCell n).mapErr fun _ => notPair
      let k ← decα k
      let v ← decβ v
      return (⟨k, v⟩ : (_ : α) × β)) fun e => keptα e.1 ∧ keptβ e.2 := by
  constructor
  · intro n e he
    simp only [bind_eq_ok, pure_eq, Outcome.ok.injEq] at he
    obtain ⟨⟨a, b⟩, -, k, hk, v, hv, rfl⟩ := he
    exact ⟨hα.kept_of_ok hk, hβ.kept_of_ok hv⟩
  · intro e n hkept henc
    simp only [entryToNoun, bind_eq_some, pure_eq_some] at henc
    obtain ⟨a, ha, b, hb, rfl⟩ := henc
    have hk := hα.ok_of_kept hkept.1 ha
    have hv := hβ.ok_of_kept hkept.2 hb
    simp [asCell, mapErr, hk, hv]

/-- A map comes back whatever the order in which its entries are written. -/
theorem map [DecidableEq α] (it : Iteration) (notPair : NounDecodeError) :
    Settles (mapToNoun it encα encβ) (mapFromNoun notPair decα decβ)
      fun m => ∀ k v, m.lookup k = some v → keptα k ∧ keptβ v := by
  have h := hα.entry hβ notPair
  -- the decoder reads an entry and inserts it
  have hfrom : ∀ n, mapFromNoun notPair decα decβ n = traverseTree (fun n acc => (do
      let (k, v) ← (asCell n).mapErr fun _ => notPair
      let k ← decα k
      let v ← decβ v
      return (⟨k, v⟩ : (_ : α) × β)) >>= fun e => .ok (addEntry e acc)) n ∅ := by
    intro n
    simp [mapFromNoun, bind_assoc, pure_eq, ok_bind, addEntry]
  constructor
  · intro n m hm k v hkv
    rw [hfrom] at hm
    obtain ⟨xs, hxs, rfl⟩ := h.exists_of_traverseTree addEntry hm
    rcases mem_of_lookup_foldl_insert xs hkv with hmem | hempty
    · exact hxs _ hmem
    · simp at hempty
  · intro m n hkept henc
    rw [mapToNoun, Option.map_eq_some_iff] at henc
    obtain ⟨nodes, hnodes, rfl⟩ := henc
    have hperm : ((preorder (it.order m.entries) : List _) : Multiset _) = m.entries := by
      rw [← it.coe_order m.entries, Multiset.coe_eq_coe, it.coe_order]
      exact preorder_perm _
    have hmem : ∀ k v, ⟨k, v⟩ ∈ preorder (it.order m.entries) ↔ m.lookup k = some v := by
      intro k v
      rw [← Multiset.mem_coe, hperm, ← Finmap.mem_lookup_iff, Option.mem_def]
    have hnodup : (preorder (it.order m.entries)).NodupKeys := by
      rw [← Multiset.coe_nodupKeys, hperm]
      exact m.nodupKeys
    have hread := h.traverseTree_of_kept addEntry
      (fun e he => hkept e.1 e.2 ((hmem e.1 e.2).1 ((preorder_perm _).mem_iff.2 he))) hnodes
      (∅ : Map α β)
    rw [hfrom, hread]
    refine congrArg _ (Finmap.ext_lookup fun k => Option.ext fun v => ?_)
    constructor
    · intro hv
      rcases mem_of_lookup_foldl_insert _ hv with hkv | hempty
      · exact (hmem k v).1 hkv
      · simp at hempty
    · intro hv
      exact lookup_foldl_insert hnodup ((hmem k v).2 hv) _

/-- A `Result` is a tagged pair, and comes back if the value in it does. -/
theorem result :
    Settles (resultToNoun encα encβ) (resultFromNoun decα decβ) (onResult keptα keptβ) := by
  obtain ⟨a, ha, hok⟩ := exists_makeTas_tag "ok" (by simp)
  obtain ⟨b, hb, herr⟩ := exists_makeTas_tag "err" (by simp)
  constructor
  · intro n x hx
    cases n with
    | atom => simp [resultFromNoun, asCell, mapErr] at hx
    | cell head tail =>
      simp only [resultFromNoun, asCell, mapErr, ok_bind, bind_eq_ok] at hx
      obtain ⟨tag, -, hx⟩ := hx
      split at hx
      · simp at hx
      split_ifs at hx
      · simp only [bind_eq_ok, pure_eq, Outcome.ok.injEq] at hx
        obtain ⟨v, hv, rfl⟩ := hx
        exact hα.kept_of_ok hv
      · simp only [bind_eq_ok, pure_eq, Outcome.ok.injEq] at hx
        obtain ⟨e, he, rfl⟩ := hx
        exact hβ.kept_of_ok he
  · intro x n hkept henc
    cases x with
    | ok v =>
      simp only [resultToNoun, ha, bind_eq_some, Option.some.injEq, exists_eq_left',
        pure_eq_some] at henc
      obtain ⟨m, hm, rfl⟩ := henc
      have hv := hα.ok_of_kept hkept hm
      simp [resultFromNoun, asCell, asAtom, mapErr, hok, hv]
    | error e =>
      simp only [resultToNoun, hb, bind_eq_some, Option.some.injEq, exists_eq_left',
        pure_eq_some] at henc
      obtain ⟨m, hm, rfl⟩ := henc
      have he := hβ.ok_of_kept hkept hm
      simp [resultFromNoun, asCell, asAtom, mapErr, herr, he]

end Settles

end Nockchain.NounSerde
