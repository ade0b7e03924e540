import Nockchain.Proofs.NounSerde.Settles

/-!
# `Nockchain.Proofs.NounSerde.RoundTrip`: what comes back from `from_noun(to_noun(x))`

The laws of `Settles` and the domains of the encoders (`Encodes`), put together over
all the types the codecs nest to. Both are decided by the texts and byte strings inside
a value, so what has to hold is said of these with `Ty.Holds`.

Byte strings are where the codecs do not meet: `to_noun` writes the bytes as a number
and `from_noun` returns whole words, so a byte string comes back only if its length is a
multiple of eight; and the empty one, like the empty text, cannot be written at all
(`roundTrips_iff_whole`).
-/

set_option autoImplicit false

namespace Nockchain.NounSerde

open Nockchain.Lib Option

/-! ### All types -/

mutual

/-- Every text inside a value has `ps`, and every byte string has `pb`. -/
def Ty.Holds (ps : String → Prop) (pb : Bytes → Prop) : (t : Ty) → t.Val → Prop
  | .u32, _ => True
  | .u64, _ => True
  | .usize, _ => True
  | .bool, _ => True
  | .string, s => ps s
  | .bytes, b => pb b
  | .vecU8, _ => True
  | .option t, x => ∀ y ∈ (show Option t.Val from x), t.Holds ps pb y
  | .vec t, xs => ∀ x ∈ (show List t.Val from xs), t.Holds ps pb x
  | .array n t, xs => ∀ x ∈ (show List.Vector t.Val n from xs).toList, t.Holds ps pb x
  | .tuple fs, x => fs.Holds ps pb x
  | .hashMap k v, m => ∀ a b, (show Map k.Val v.Val from m).lookup a = some b →
      k.Holds ps pb a ∧ v.Holds ps pb b
  | .btreeMap k v, m => ∀ a b, (show Map k.Val v.Val from m).lookup a = some b →
      k.Holds ps pb a ∧ v.Holds ps pb b
  | .hashSet t, s => ∀ x ∈ (show Finset t.Val from s), t.Holds ps pb x
  | .result t e, r => onResult (t.Holds ps pb) (e.Holds ps pb) r

def Fields.Holds (ps : String → Prop) (pb : Bytes → Prop) : (fs : Fields) → fs.Val → Prop
  | .pair t u, x => t.Holds ps pb x.1 ∧ u.Holds ps pb x.2
  | .cons t fs, x => t.Holds ps pb x.1 ∧ fs.Holds ps pb x.2

end

/-- Texts without trailing NULs, and byte strings that fill their words. -/
def Ty.Kept (t : Ty) (x : t.Val) : Prop :=
  t.Holds (fun s => trimEndNul s = s) (fun b => asNeBytes (ofLittleEndian b.data) = b.data) x

def Fields.Kept (fs : Fields) (x : fs.Val) : Prop :=
  fs.Holds (fun s => trimEndNul s = s) (fun b => asNeBytes (ofLittleEndian b.data) = b.data) x

mutual

/-- The law of every codec. -/
theorem Ty.settles (it : Iteration) : (t : Ty) → Settles (t.toNoun it) t.fromNoun t.Kept
  | .u32 => settles_u32
  | .u64 => settles_u64
  | .usize => settles_usize
  | .bool => settles_bool
  | .string => settles_string
  | .bytes => settles_bytes
  | .vecU8 => settles_vecU8
  | .option t => (t.settles it).option
  | .vec t => (t.settles it).vec
  | .array n t => (t.settles it).array n
  | .tuple fs => by
    obtain ⟨m, hm⟩ := fs.exists_arity
    constructor
    · intro n x hx
      obtain ⟨parts, -, hparts⟩ := Outcome.bind_eq_ok.1 hx
      exact (fs.settles it).1 hparts
    intro x n hx henc
    obtain ⟨parts, hparts, hdec⟩ := (fs.settles it).2 hx henc
    refine Outcome.bind_eq_ok.2 ⟨parts, ?_, hdec⟩
    rw [hm] at hparts ⊢
    exact tupleSlots_eq_ok.2 hparts
  | .hashMap k v => (k.settles it).map (v.settles it) it .expectedCell
  | .btreeMap k v => (k.settles it).map (v.settles it) it (.ofNoun .notCell)
  | .hashSet t => (t.settles it).hashSet it
  | .result t e => (t.settles it).result (e.settles it)

theorem Fields.settles (it : Iteration) : (fs : Fields) →
    (∀ {parts x}, fs.fromNouns parts = .ok x → fs.Kept x) ∧
    (∀ {x n}, fs.Kept x → fs.toNoun it x = some n →
      ∃ parts, spine (fs.arity - 1) n = some parts ∧ fs.fromNouns parts = .ok x)
  | .pair t u => by
    constructor
    · intro parts x hx
      obtain ⟨a, b, -, ha, hb⟩ := lastComponents_eq_ok.1 hx
      exact ⟨(t.settles it).kept_of_ok ha, (u.settles it).kept_of_ok hb⟩
    intro x n hx henc
    obtain ⟨a, b, ha, hb, rfl⟩ := pairToNoun_eq_some.1 henc
    refine ⟨[a, b], rfl, lastComponents_eq_ok.2 ⟨a, b, rfl, ?_, ?_⟩⟩
    · exact (t.settles it).ok_of_kept hx.1 ha
    · exact (u.settles it).ok_of_kept hx.2 hb
  | .cons t fs => by
    obtain ⟨m, hm⟩ := fs.exists_arity
    constructor
    · intro parts x hx
      obtain ⟨a, rest, -, ha, hrest⟩ := nextComponent_eq_ok.1 hx
      exact ⟨(t.settles it).kept_of_ok ha, (fs.settles it).1 hrest⟩
    intro x n hx henc
    obtain ⟨a, b, ha, hb, rfl⟩ := pairToNoun_eq_some.1 henc
    obtain ⟨parts, hparts, hdec⟩ := (fs.settles it).2 hx.2 hb
    rw [hm] at hparts
    refine ⟨a :: parts, ?_, nextComponent_eq_ok.2
      ⟨a, parts, rfl, (t.settles it).ok_of_kept hx.1 ha, hdec⟩⟩
    show spine (fs.arity + 1 - 1) _ = _
    rw [hm]
    show (spine (m + 1) b).map (a :: ·) = _
    rw [show m + 1 = m + 2 - 1 from rfl, hparts]
    rfl

end

/-! ### What can be encoded -/

section Encodes

variable {α β : Type}

/-- The values `enc` has a noun for are those with `p`. -/
def Encodes (enc : α → Option Noun) (p : α → Prop) : Prop := ∀ x, (∃ n, enc x = some n) ↔ p x

variable {enc : α → Option Noun} {p : α → Prop} {enc' : β → Option Noun} {q : β → Prop}

variable (h : Encodes enc p)
include h

theorem Encodes.option : Encodes (optionToNoun enc) fun x => ∀ y ∈ x, p y := by
  intro x
  cases x with
  | none => simp [optionToNoun]
  | some y => simp [optionToNoun, ← h y]

theorem Encodes.vec : Encodes (vecToNoun enc) fun xs => ∀ x ∈ xs, p x := by
  intro xs
  induction xs with
  | nil => simp [vecToNoun]
  | cons x xs ih =>
    show _ ↔ ∀ y ∈ x :: xs, p y
    rw [List.forall_mem_cons, ← h x, ← show _ ↔ ∀ y ∈ xs, p y from ih]
    simp [vecToNoun, bind_eq_some_iff]

theorem Encodes.array (xs : List α) :
    (∃ n, arrayToNoun enc xs = some n) ↔ ∀ x ∈ xs, p x := by
  fun_induction arrayToNoun enc xs with
  | case1 => simp
  | case2 x => simp [h x]
  | case3 x y xs ih =>
    rw [List.forall_mem_cons, ← h x, ← ih]
    simp [bind_eq_some_iff]

theorem Encodes.pair (h' : Encodes enc' q) :
    Encodes (pairToNoun enc enc') fun x => p x.1 ∧ q x.2 := by
  intro x
  show _ ↔ p x.1 ∧ q x.2
  rw [← h x.1, ← h' x.2]
  simp [pairToNoun, bind_eq_some_iff]

theorem Encodes.mapM (xs : List α) :
    (∃ nodes, xs.mapM enc = some nodes) ↔ ∀ x ∈ xs, p x := by
  constructor
  · rintro ⟨nodes, hnodes⟩ x hx
    obtain ⟨n, -, hn⟩ := exists_of_mem_forall₂ (forall₂_of_mapM hnodes).flip hx
    exact (h x).1 ⟨n, hn⟩
  · intro hxs
    obtain ⟨nodes, hnodes, -⟩ := exists_mapM fun x hx => (h x).2 (hxs x hx)
    exact ⟨nodes, hnodes⟩

/-- A map can be written if its keys and values can. -/
theorem Encodes.map [DecidableEq α] (h' : Encodes enc' q) (it : Iteration) :
    Encodes (mapToNoun it enc enc') fun m => ∀ k v, m.lookup k = some v → p k ∧ q v := by
  intro m
  have hentry : Encodes (entryToNoun enc enc') fun e => p e.1 ∧ q e.2 := by
    intro e
    show _ ↔ p e.1 ∧ q e.2
    rw [← h e.1, ← h' e.2]
    simp [entryToNoun, bind_eq_some_iff]
  have hnodes : (∃ n, mapToNoun it enc enc' m = some n)
      ↔ ∃ nodes, (it.order m.entries).mapM (entryToNoun enc enc') = some nodes := by
    simp [mapToNoun]
  rw [hnodes, hentry.mapM]
  have hmem : ∀ e, e ∈ it.order m.entries ↔ m.lookup e.1 = some e.2 := by
    intro e
    rw [← Multiset.mem_coe, it.coe_order, ← mem_def, Finmap.mem_lookup_iff]
  constructor
  · intro hall k v hkv
    exact hall ⟨k, v⟩ ((hmem _).2 hkv)
  · intro hall e he
    exact hall e.1 e.2 ((hmem e).1 he)

theorem Encodes.hashSet (it : Iteration) :
    Encodes (hashSetToNoun it enc) fun s => ∀ x ∈ s, p x := by
  intro s
  have hnodes : (∃ n, hashSetToNoun it enc s = some n)
      ↔ ∃ nodes, (it.order s.val).mapM enc = some nodes := by
    simp [hashSetToNoun]
  rw [hnodes, h.mapM]
  have hmem : ∀ x, x ∈ it.order s.val ↔ x ∈ s := by
    intro x
    rw [← Multiset.mem_coe, it.coe_order, Finset.mem_val]
  simp [hmem]

theorem Encodes.result (h' : Encodes enc' q) :
    Encodes (resultToNoun enc enc') (onResult p q) := by
  obtain ⟨a, hok, -⟩ := exists_makeTas_tag "ok" (by simp)
  obtain ⟨b, herr, -⟩ := exists_makeTas_tag "err" (by simp)
  intro x
  cases x with
  | ok v => simp [resultToNoun, hok, onResult, ← h v, bind_eq_some_iff]
  | error e => simp [resultToNoun, herr, onResult, ← h' e, bind_eq_some_iff]

end Encodes

theorem encodes_string : Encodes stringToNoun (· ≠ "") := by
  intro s
  have hbytes : strBytes s = [] ↔ s = "" := by
    constructor
    · intro h
      have := congrArg fromUtf8 h
      rw [fromUtf8_strBytes] at this
      exact some.inj (this.trans (fromUtf8_strBytes ""))
    · rintro rfl
      rfl
  by_cases hs : strBytes s = [] <;> simp [stringToNoun, makeTas, fromBytes, ← hbytes, hs]

theorem encodes_bytes : Encodes bytesToNoun (·.data ≠ []) := by
  intro b
  by_cases hb : b.data = [] <;> simp [bytesToNoun, fromBytes, hb]

theorem encodes_vecU8 : Encodes vecU8ToNoun fun _ => True := by
  intro xs
  have h64 : Encodes u64ToNoun fun _ => True := fun x => by simp [u64ToNoun]
  simpa [vecU8ToNoun] using h64.vec (xs.map UInt8.toUInt64)

mutual

theorem Ty.encodes (it : Iteration) :
    (t : Ty) → Encodes (t.toNoun it) (t.Holds (· ≠ "") (·.data ≠ []))
  | .u32 | .u64 | .usize | .bool => fun _ => ⟨fun _ => trivial, fun _ => ⟨_, rfl⟩⟩
  | .string => encodes_string
  | .bytes => encodes_bytes
  | .vecU8 => encodes_vecU8
  | .option t => (t.encodes it).option
  | .vec t => (t.encodes it).vec
  | .array _ t => fun xs => (t.encodes it).array xs.toList
  | .tuple fs => fs.encodes it
  | .hashMap k v | .btreeMap k v => (k.encodes it).map (v.encodes it) it
  | .hashSet t => (t.encodes it).hashSet it
  | .result t e => (t.encodes it).result (e.encodes it)

theorem Fields.encodes (it : Iteration) :
    (fs : Fields) → Encodes (fs.toNoun it) (fs.Holds (· ≠ "") (·.data ≠ []))
  | .pair t u => (t.encodes it).pair (u.encodes it)
  | .cons t fs => (t.encodes it).pair (fs.encodes it)

end

/-! ### Round trips -/

section Combine

variable {ps qs rs : String → Prop} {pb qb rb : Bytes → Prop}

mutual

/-- Properties of the texts and byte strings inside a value combine. -/
theorem Ty.Holds.combine (hs : ∀ s, ps s → qs s → rs s) (hb : ∀ b, pb b → qb b → rb b) :
    {t : Ty} → {x : t.Val} → t.Holds ps pb x → t.Holds qs qb x → t.Holds rs rb x
  | .u32, _, _, _ | .u64, _, _, _ | .usize, _, _, _ | .bool, _, _, _ => trivial
  | .string, s, hp, hq => hs s hp hq
  | .bytes, b, hp, hq => hb b hp hq
  | .vecU8, _, _, _ => trivial
  | .option _, _, hp, hq => fun y hy => (hp y hy).combine hs hb (hq y hy)
  | .vec _, _, hp, hq | .array _ _, _, hp, hq => fun y hy => (hp y hy).combine hs hb (hq y hy)
  | .tuple fs, x, hp, hq => Fields.Holds.combine hs hb (f := fs) (x := x) hp hq
  | .hashMap _ _, _, hp, hq | .btreeMap _ _, _, hp, hq => fun k v h =>
    ⟨(hp k v h).1.combine hs hb (hq k v h).1, (hp k v h).2.combine hs hb (hq k v h).2⟩
  | .hashSet _, _, hp, hq => fun y hy => (hp y hy).combine hs hb (hq y hy)
  | .result t _, .ok v, hp, hq => Ty.Holds.combine hs hb (t := t) (x := v) hp hq
  | .result _ e, .error v, hp, hq => Ty.Holds.combine hs hb (t := e) (x := v) hp hq

theorem Fields.Holds.combine (hs : ∀ s, ps s → qs s → rs s) (hb : ∀ b, pb b → qb b → rb b) :
    {f : Fields} → {x : f.Val} → f.Holds ps pb x → f.Holds qs qb x → f.Holds rs rb x
  | .pair _ _, _, hp, hq => ⟨hp.1.combine hs hb hq.1, hp.2.combine hs hb hq.2⟩
  | .cons _ _, _, hp, hq => ⟨hp.1.combine hs hb hq.1, Fields.Holds.combine hs hb hp.2 hq.2⟩

end

end Combine

/-- `from_noun(to_noun(x)) = Ok(x)`. -/
def Ty.RoundTrips (it : Iteration) (t : Ty) (x : t.Val) : Prop :=
  ∃ n, t.toNoun it x = some n ∧ t.fromNoun n = .ok x

theorem Ty.roundTrips_iff (it : Iteration) (t : Ty) (x : t.Val) :
    t.RoundTrips it x ↔ t.Holds (· ≠ "") (·.data ≠ []) x ∧ t.Kept x := by
  constructor
  · rintro ⟨n, henc, hdec⟩
    exact ⟨(t.encodes it x).1 ⟨n, henc⟩, (t.settles it).kept_of_ok hdec⟩
  · rintro ⟨hne, hkept⟩
    obtain ⟨n, henc⟩ := (t.encodes it x).2 hne
    exact ⟨n, henc, (t.settles it).ok_of_kept hkept henc⟩

/-- Texts without a trailing NUL and byte strings without a trailing zero byte. -/
def Ty.Clean (t : Ty) (x : t.Val) : Prop :=
  t.Holds (fun s => trimEndNul s = s) (fun b => b.data.getLast? ≠ some 0) x

/-- A value comes back exactly when no text inside it is empty, and every byte string
inside it fills at least one word and all it fills. -/
theorem roundTrips_iff_whole (it : Iteration) (t : Ty) (x : t.Val) (hx : t.Clean x) :
    t.RoundTrips it x ↔ t.Holds (· ≠ "") (fun b => b.data ≠ [] ∧ 8 ∣ b.data.length) x := by
  rw [t.roundTrips_iff it x]
  constructor
  · rintro ⟨hne, hkept⟩
    have hboth : t.Holds (· ≠ "")
        (fun b => b.data ≠ [] ∧ asNeBytes (ofLittleEndian b.data) = b.data) x :=
      hne.combine (fun _ h _ => h) (fun _ h h' => ⟨h, h'⟩) hkept
    refine hx.combine (fun _ _ h => h) ?_ hboth
    intro b hlast hb
    exact ⟨hb.1, (asNeBytes_ofLittleEndian_iff hb.1 hlast).1 hb.2⟩
  · intro hwhole
    constructor
    · exact hx.combine (fun _ _ h => h) (fun _ _ h => h.1) hwhole
    · refine hx.combine (fun _ h _ => h) ?_ hwhole
      intro b hlast hb
      exact (asNeBytes_ofLittleEndian_iff hb.1 hlast).2 hb.2

/-- Two texts and a full word of bytes, in a list of pairs. -/
theorem roundTrips_named_word : (Ty.vec (.tuple (.pair .string (.option .bytes)))).RoundTrips
      ⟨fun s => s.toList, fun s => s.coe_toList⟩
      [("id", some ⟨[1, 2, 3, 4, 5, 6, 7, 8]⟩), ("none", none)] := by
  have hid : trimEndNul "id" = "id" := by decide +kernel
  have hnone : trimEndNul "none" = "none" := by decide +kernel
  refine (roundTrips_iff_whole _ _ _ ?_).2 ?_
  · show ∀ x ∈ [("id", some (⟨[1, 2, 3, 4, 5, 6, 7, 8]⟩ : Bytes)), ("none", none)],
      trimEndNul x.1 = x.1 ∧ ∀ b ∈ x.2, b.data.getLast? ≠ some 0
    simp [hid, hnone]
  · show ∀ x ∈ [("id", some (⟨[1, 2, 3, 4, 5, 6, 7, 8]⟩ : Bytes)), ("none", none)],
      x.1 ≠ "" ∧ ∀ b ∈ x.2, b.data ≠ [] ∧ 8 ∣ b.data.length
    simp

/-- The empty byte string, a single byte and the empty text do not come back, in any
iteration order. -/
theorem not_roundTrips_short : (Ty.bytes.Clean ⟨[]⟩ ∧ ∀ it, ¬ Ty.bytes.RoundTrips it ⟨[]⟩) ∧
    (Ty.bytes.Clean ⟨[1]⟩ ∧ ∀ it, ¬ Ty.bytes.RoundTrips it ⟨[1]⟩) ∧
    (Ty.string.Clean "" ∧ ∀ it, ¬ Ty.string.RoundTrips it "") := by
  have hlost : ∀ it (b : Bytes), b.data = [] ∨ asNeBytes (ofLittleEndian b.data) ≠ b.data →
      ¬ Ty.bytes.RoundTrips it b := by
    intro it b hb htrip
    obtain ⟨hne, hkept⟩ := (Ty.bytes.roundTrips_iff it b).1 htrip
    rcases hb with hb | hb
    · exact hne hb
    · exact hb hkept
  refine ⟨⟨?_, fun it => hlost it _ (.inl rfl)⟩, ⟨?_, fun it => hlost it _ (.inr ?_)⟩, ?_, ?_⟩
  · show ([] : List UInt8).getLast? ≠ some 0
    decide
  · show [(1 : UInt8)].getLast? ≠ some 0
    decide
  · decide +kernel
  · show trimEndNul "" = ""
    decide +kernel
  · intro it htrip
    exact ((Ty.string.roundTrips_iff it _).1 htrip).1 rfl

end Nockchain.NounSerde
