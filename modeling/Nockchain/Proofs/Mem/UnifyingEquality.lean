import Nockchain.Proofs.Mem.Mug
import Nockchain.Proofs.Mem.Seniority

/-!
# `Nockchain.Proofs.Mem.UnifyingEquality`: the comparison decides equality

A write of the comparison replaces a word by another that stands for the same noun,
so that no word and no slot changes its meaning (`preserves_write`), and the level
of what a slot refers to never falls (`Sound.write`).

The loop is followed pair by pair. Two slots that hold the same noun end up with the
same word (`allMeet`), and two that do not end the loop (`breaks_of_denotes`). While a
pair is compared that holds `n`, only its own two slots and the fields of cells no
larger than `n` are written. So the comparison of the tails of two cells does not undo
that of their heads, although the two may share objects with each other and with the
other side: a cell that both are part of is larger.
-/

set_option autoImplicit false

namespace Nockchain.Mem

open Memory

/-! ### Writes keep the meaning -/

namespace Heap

variable {heap heap' : Heap} {v w : Word} {n : Noun}

/-- One word may stand for the other. -/
def Same (heap : Heap) (v w : Word) : Prop := v = w ∨ ∃ n, heap.Denotes v n ∧ heap.Denotes w n

/-- One object may stand for the other. -/
inductive Alike (heap : Heap) : Option Object → Option Object → Prop where
  | none : Alike heap none none
  | atom (data : List (BitVec 64)) : Alike heap (some (.atom data)) (some (.atom data))
  | cell {h t h' t' : Word} (hhead : heap.Same h h') (htail : heap.Same t t') :
      Alike heap (some (.cell h t)) (some (.cell h' t'))

theorem Same.denotes (h : heap.Same v w) (hv : heap.Denotes v n) : heap.Denotes w n := by
  rcases h with rfl | ⟨m, hm, hw⟩
  · exact hv
  · exact hv.unique hm ▸ hw

theorem Alike.refl (obj : Option Object) : heap.Alike obj obj := by
  cases obj with
  | none => exact .none
  | some obj =>
    cases obj with
    | atom data => exact .atom data
    | cell h t => exact .cell (.inl rfl) (.inl rfl)

section

variable (h : ∀ ptr, heap.Alike (heap.object ptr) (heap'.object ptr))

include h

theorem Denotes.of_alike (hw : heap.Denotes w n) : heap'.Denotes w n := by
  -- By induction on the noun, and not on the derivation: the words of the new heap are others.
  induction n generalizing w with
  | atom a =>
    cases hw with
    | direct data => exact .direct data
    | @indirect form ptr data hobject hlast hlarge =>
      have halike := h ptr
      rw [hobject] at halike
      cases hobject' : heap'.object ptr <;> rw [hobject'] at halike <;> cases halike
      exact .indirect form hobject' hlast hlarge
  | cell n m ihn ihm =>
    cases hw with
    | @cell form ptr head tail _ _ hobject hhead htail =>
      have halike := h ptr
      rw [hobject] at halike
      cases hobject' : heap'.object ptr <;> rw [hobject'] at halike <;> cases halike
      case cell h' t' hsame hsame' =>
        exact .cell form hobject' (ihn (hsame.denotes hhead)) (ihm (hsame'.denotes htail))

theorem Same.of_alike (hsame : heap.Same v w) : heap'.Same w v := by
  rcases hsame with rfl | ⟨n, hv, hw⟩
  · exact .inl rfl
  · exact .inr ⟨n, hw.of_alike h, hv.of_alike h⟩

theorem Alike.symm_of_alike (ptr : Nat) : heap'.Alike (heap'.object ptr) (heap.object ptr) := by
  have halike := h ptr
  generalize heap.object ptr = obj at halike ⊢
  generalize heap'.object ptr = obj' at halike ⊢
  cases halike with
  | none => exact .none
  | atom data => exact .atom data
  | cell hhead htail => exact .cell (hhead.of_alike h) (htail.of_alike h)

theorem denotes_iff_of_alike : heap.Denotes w n ↔ heap'.Denotes w n :=
  ⟨fun hw => hw.of_alike h, fun hw => hw.of_alike (Alike.symm_of_alike h)⟩

end

end Heap

namespace Memory

variable {m m' m'' : Memory} {x y : Slot} {v w : Word} {n : Noun}

theorem read_head_eq_some {ptr : Nat} :
    m.read (.head ptr) = some v ↔ ∃ t, m.heap.object ptr = some (.cell v t) := by
  simp only [read]
  split <;> simp_all

theorem read_tail_eq_some {ptr : Nat} :
    m.read (.tail ptr) = some v ↔ ∃ h, m.heap.object ptr = some (.cell h v) := by
  simp only [read]
  split <;> simp_all

theorem read_write_self (hx : m.read x = some v) : (m.write x w).read x = some w := by
  cases x with
  | root i => simp [read, write]
  | head ptr =>
    obtain ⟨t, hobject⟩ := read_head_eq_some.1 hx
    simp [read, write, hobject, setObject]
  | tail ptr =>
    obtain ⟨h, hobject⟩ := read_tail_eq_some.1 hx
    simp [read, write, hobject, setObject]

theorem object_setObject (ptr p : Nat) (obj : Object) :
    (m.setObject ptr obj).heap.object p = if p = ptr then some obj else m.heap.object p := rfl

theorem read_write_of_ne (hne : y ≠ x) : (m.write x w).read y = m.read y := by
  cases x with
  | root i => cases y <;> simp_all [read, write]
  | head ptr | tail ptr =>
    simp only [write]
    split
    case h_2 => rfl
    case h_1 head tail hobject =>
      cases y with
      | root j => rfl
      | head p | tail p => by_cases hp : p = ptr <;> simp_all [read, object_setObject]

@[simp] theorem mug_write : (m.write x w).heap.mug = m.heap.mug := by
  unfold write
  split
  · rfl
  · split <;> rfl
  · split <;> rfl

/-- The slot holds a word for the noun. -/
def Holds (m : Memory) (x : Slot) (n : Noun) : Prop := ∃ w, m.read x = some w ∧ m.heap.Denotes w n

/-- Every word and every slot keeps its meaning. The mugs stay, and no object comes or goes. -/
structure Preserves (m m' : Memory) : Prop where
  denotes : ∀ w n, m.heap.Denotes w n ↔ m'.heap.Denotes w n
  holds : ∀ x n, m.Holds x n → m'.Holds x n
  mug : m'.heap.mug = m.heap.mug
  object : ∀ ptr, m'.heap.object ptr = none ↔ m.heap.object ptr = none

theorem Preserves.refl (m : Memory) : m.Preserves m :=
  ⟨fun _ _ => Iff.rfl, fun _ _ h => h, rfl, fun _ => Iff.rfl⟩

theorem Preserves.trans (h : m.Preserves m') (h' : m'.Preserves m'') : m.Preserves m'' where
  denotes w n := (h.denotes w n).trans (h'.denotes w n)
  holds x n hx := h'.holds x n (h.holds x n hx)
  mug := h'.mug.trans h.mug
  object ptr := (h'.object ptr).trans (h.object ptr)

theorem alike_setObject {p : Nat} {obj obj' : Object} (hobject : m.heap.object p = some obj)
    (h : m.heap.Alike (some obj) (some obj')) (ptr : Nat) :
    m.heap.Alike (m.heap.object ptr) ((m.setObject p obj').heap.object ptr) := by
  rw [object_setObject]
  split_ifs with hptr
  · rwa [hptr, hobject]
  · exact .refl _

/-- What a write changes: one field of one object. -/
theorem alike_write (hx : m.read x = some v) (hsame : m.heap.Same v w) (ptr : Nat) :
    m.heap.Alike (m.heap.object ptr) ((m.write x w).heap.object ptr) := by
  cases x with
  | root i => exact .refl _
  | head p =>
    obtain ⟨t, hobject⟩ := read_head_eq_some.1 hx
    simp only [write, hobject]
    exact alike_setObject hobject (.cell hsame (.inl rfl)) ptr
  | tail p =>
    obtain ⟨h, hobject⟩ := read_tail_eq_some.1 hx
    simp only [write, hobject]
    exact alike_setObject hobject (.cell (.inl rfl) hsame) ptr

theorem preserves_write (hx : m.read x = some v) (hv : m.heap.Denotes v n)
    (hw : m.heap.Denotes w n) : m.Preserves (m.write x w) := by
  have halike := alike_write hx (.inr ⟨n, hv, hw⟩)
  refine ⟨fun _ _ => Heap.denotes_iff_of_alike halike, ?_, mug_write, ?_⟩
  · intro y k hy
    obtain ⟨u, hu, huk⟩ := hy
    by_cases hyx : y = x
    · subst hyx
      cases hx.symm.trans hu
      exact ⟨w, read_write_self hx, (huk.unique hv ▸ hw).of_alike halike⟩
    · exact ⟨u, (read_write_of_ne hyx).trans hu, huk.of_alike halike⟩
  · intro ptr
    have hptr := halike ptr
    generalize m.heap.object ptr = obj at hptr ⊢
    generalize (m.write x w).heap.object ptr = obj' at hptr ⊢
    cases hptr <;> simp

end Memory

/-! ### The levels of references -/

section

variable (space : NounSpace) (home : Nat → WithTop Nat)

/-- The level at which a slot is. The caller says where its variables are. -/
def slotLevel : Slot → WithTop Nat
  | .root i => home i
  | .head ptr => space.level ptr
  | .tail ptr => space.level ptr

/-- Memory as the machine keeps it: the mugs are right, the objects are in the arenas, and no slot
refers to a lower level than its own, from an older frame to a younger one or from the persistent
arena to the stack. -/
structure Sound (m : Memory) : Prop where
  cached : m.heap.Cached
  placed : ∀ ptr, m.heap.object ptr ≠ none → space.classifyPtr ptr ≠ none
  senior : ∀ x w, m.read x = some w → slotLevel space home x ≤ space.wordLevel w

end

section

variable {space : NounSpace} {home : Nat → WithTop Nat} {m m' : Memory} {x y : Slot}
  {v w xw yw : Word} {n k : Noun} {q : List (Slot × Slot)}

theorem Sound.write (h : Sound space home m) (hx : m.read x = some v) (hv : m.heap.Denotes v n)
    (hw : m.heap.Denotes w n) (hlevel : space.wordLevel v ≤ space.wordLevel w) :
    Sound space home (m.write x w) := by
  have hpreserves := preserves_write hx hv hw
  refine ⟨?_, fun ptr hptr => h.placed ptr ?_, ?_⟩
  · intro kind form ptr n' mug hn' hmug
    refine h.cached kind form ptr n' mug ((hpreserves.denotes _ _).2 hn') ?_
    rwa [Heap.getCachedMug, hpreserves.mug] at hmug
  · rwa [Ne, ← hpreserves.object]
  intro z u hz
  by_cases hzx : z = x
  · subst hzx
    rw [read_write_self hx] at hz
    cases hz
    exact (h.senior z v hx).trans hlevel
  · rw [read_write_of_ne hzx] at hz
    exact h.senior z u hz

variable {ptr : Nat}

theorem object_ne_none_of_denotes {heap : Heap} {kind : Kind} {form : Form}
    (h : heap.Denotes (.allocated kind form ptr) n) : heap.object ptr ≠ none := by
  cases h with
  | indirect _ hobject | cell _ hobject => simp [hobject]

/-- The space in which the loop runs. -/
def pushed (space : NounSpace) : NounSpace := { space with stack := space.stack.framePush 0 }

/-- A turn of the loop, in the frame that is pushed for it, and its parts. -/
abbrev turn (space : NounSpace) :=
  unifyTurn (pushed space) (space.stack.framePush 0).currentFrameBounds

@[inherit_doc turn]
abbrev compared (space : NounSpace) :=
  compareAllocated (pushed space) (space.stack.framePush 0).currentFrameBounds

@[inherit_doc turn]
abbrev unified (space : NounSpace) :=
  unify (pushed space) (space.stack.framePush 0).currentFrameBounds

@[inherit_doc turn]
def loop (space : NounSpace) := unifyLoop (pushed space) (space.stack.framePush 0).currentFrameBounds

/-- The two slots of a pair end up with the same word, and the others as they were. -/
structure Joined (space : NounSpace) (home : Nat → WithTop Nat) (m m' : Memory) (x y : Slot) :
    Prop where
  preserves : m.Preserves m'
  sound : Sound space home m'
  read_eq : m'.read x = m'.read y

variable {xform yform : Form} {xptr yptr : Nat} {xkind ykind : Kind}

/-! ### The words of an atom -/

theorem value_eq_ofDigits (data : List (BitVec 64)) :
    value data = Nat.ofDigits (2 ^ 64) (data.map BitVec.toNat) := by
  induction data with
  | nil => rfl
  | cons w data ih => rw [List.map_cons, Nat.ofDigits_cons, ← ih]; rfl

/-- Normalized atoms of the same value have the same words. -/
theorem data_eq_of_value_eq {data data' : List (BitVec 64)} (h : value data = value data')
    (hlast : data.getLast? ≠ some 0) (hlast' : data'.getLast? ≠ some 0) : data = data' := by
  have hdigits : ∀ data : List (BitVec 64), data.getLast? ≠ some 0 →
      Nat.digits (2 ^ 64) (value data) = data.map BitVec.toNat := by
    intro data hlast
    rw [value_eq_ofDigits]
    refine Nat.digits_ofDigits _ (by decide) _ ?_ ?_
    · intro digit hdigit
      obtain ⟨w, -, rfl⟩ := List.mem_map.1 hdigit
      exact w.isLt
    intro hne hzero
    have hdata : data ≠ [] := by simpa using hne
    rw [List.getLast_map] at hzero
    exact hlast ((List.getLast?_eq_some_getLast hdata).trans
      (congrArg some (BitVec.eq_of_toNat_eq hzero)))
  have hmap : data.map BitVec.toNat = data'.map BitVec.toNat := by
    rw [← hdigits data hlast, ← hdigits data' hlast', h]
  exact List.map_injective_iff.2 (fun _ _ => BitVec.eq_of_toNat_eq) hmap

/-! ### Turns -/

theorem mugsDiffer_eq_false (h : Sound space home m)
    (hxn : m.heap.Denotes (.allocated xkind xform xptr) n)
    (hyn : m.heap.Denotes (.allocated ykind yform yptr) n) : mugsDiffer m.heap xptr yptr = false := by
  unfold mugsDiffer
  split
  case h_1 xm ym hxm hym =>
    simp [h.cached _ _ _ _ _ hxn hxm, h.cached _ _ _ _ _ hyn hym]
  case h_2 => rfl

theorem loop_next {q' : List (Slot × Slot)} (h : turn space m x y q = some (.next m' q'))
    (fuel : Nat) : loop space (fuel + 1) m ((x, y) :: q) = loop space fuel m' q' := by
  simp [loop, unifyLoop, h]

theorem unifyTurn_of_eq (hx : m.read x = some w) (hy : m.read y = some w) :
    turn space m x y q = some (.next m q) := by
  simp [unifyTurn, hx, hy]

theorem unifyTurn_of_allocated (hx : m.read x = some (.allocated xkind xform xptr))
    (hy : m.read y = some (.allocated ykind yform yptr))
    (hne : Word.allocated xkind xform xptr ≠ .allocated ykind yform yptr) : turn space m x y q =
      if mugsDiffer m.heap xptr yptr then some (.brk m)
      else compared space m x y q xkind xform xptr ykind yform yptr := by
  simp only [unifyTurn, hx, hy, if_neg hne]

/-! ### A pair that holds one noun -/

/-- The slot is a field of a cell no larger than the noun. -/
def Below (m : Memory) (z : Slot) (n : Noun) : Prop :=
  ∃ ptr c, (z = .head ptr ∨ z = .tail ptr) ∧
    m.heap.Denotes (.allocated .cell .pointer ptr) c ∧ sizeOf c ≤ sizeOf n

/-- The loop joins the pair on top of the work stack and goes on below it. On the way it writes the
two slots and fields of cells that are no larger than their noun. -/
def Meets (space : NounSpace) (home : Nat → WithTop Nat) (m : Memory) (x y : Slot) (n : Noun)
    (q : List (Slot × Slot)) : Prop :=
  ∃ turns m', Joined space home m m' x y ∧
    (∀ z, z ≠ x → z ≠ y → ¬ Below m z n → m'.read z = m.read z) ∧
    ∀ fuel, loop space (fuel + turns) m ((x, y) :: q) = loop space fuel m' q

theorem meets_of_eq (h : Sound space home m) (hx : m.read x = some w) (hy : m.read y = some w) :
    Meets space home m x y n q :=
  ⟨1, m, ⟨.refl m, h, hx.trans hy.symm⟩, fun _ _ _ _ => rfl, loop_next (unifyTurn_of_eq hx hy)⟩

section Allocated

variable (hlaid : space.Laid) (h : Sound space home m)
  (hx : m.read x = some (.allocated xkind xform xptr))
  (hy : m.read y = some (.allocated ykind yform yptr))
  (hne : Word.allocated xkind xform xptr ≠ .allocated ykind yform yptr)
  (hxn : m.heap.Denotes (.allocated xkind xform xptr) n)
  (hyn : m.heap.Denotes (.allocated ykind yform yptr) n)

include hlaid h hx hy hne hxn hyn

/-- Two words that stand for one noun are replaced by the senior one, and nothing else changes. -/
theorem unify_eq :
    ∃ m', unified space m x y (.allocated xkind xform xptr) (.allocated ykind yform yptr) q xform
        xptr yform yptr = some (.next m' q) ∧ Joined space home m m' x y ∧
      ∀ z, z ≠ x → z ≠ y → m'.read z = m.read z := by
  have hxy : x ≠ y := by
    rintro rfl
    exact hne (Option.mem_unique hx hy)
  obtain ⟨replace, hreplace, hxle, hyle⟩ := NounSpace.replaceX_eq hlaid xform yform xkind ykind
    (h.placed xptr (object_ne_none_of_denotes hxn))
    (h.placed yptr (object_ne_none_of_denotes hyn))
  simp only [unify, pushed, hreplace, Option.bind_eq_bind, Option.bind_some]
  cases replace with
  | true =>
    refine ⟨_, rfl, ⟨preserves_write hx hxn hyn, h.write hx hxn hyn (hxle rfl), ?_⟩, ?_⟩
    · rw [read_write_self hx, read_write_of_ne hxy.symm, hy]
    · intro z hzx _
      exact read_write_of_ne hzx
  | false =>
    refine ⟨_, rfl, ⟨preserves_write hy hyn hxn, h.write hy hyn hxn (hyle rfl), ?_⟩, ?_⟩
    · rw [read_write_self hy, read_write_of_ne hxy, hx]
    · intro z _ hzy
      exact read_write_of_ne hzy

theorem meets_of_unify (hcompare : compared space m x y q xkind xform xptr ykind yform yptr =
      unified space m x y (.allocated xkind xform xptr) (.allocated ykind yform yptr) q xform
        xptr yform yptr) : Meets space home m x y n q := by
  obtain ⟨m', hunify, hjoined, hframe⟩ := unify_eq hlaid h (q := q) hx hy hne hxn hyn
  refine ⟨1, m', hjoined, fun z hzx hzy _ => hframe z hzx hzy, loop_next ?_⟩
  rw [unifyTurn_of_allocated hx hy hne, mugsDiffer_eq_false h hxn hyn, if_neg (by simp), hcompare,
    hunify]

end Allocated

theorem meets_atom (hlaid : space.Laid) (h : Sound space home m) {a : Nat}
    (hx : m.read x = some xw) (hy : m.read y = some yw) (hxn : m.heap.Denotes xw (.atom a))
    (hyn : m.heap.Denotes yw (.atom a)) : Meets space home m x y (.atom a) q := by
  by_cases hne : xw = yw
  · subst hne
    exact meets_of_eq h hx hy
  rcases hxn.atom_cases with ⟨xdata, rfl, hxa⟩ | ⟨xform, xptr, xdata, rfl, hxo, hxl, hlarge, hxa⟩ <;>
    rcases hyn.atom_cases with ⟨ydata, rfl, hya⟩ | ⟨yform, yptr, ydata, rfl, hyo, hyl, hlarge', hya⟩
  · exact absurd (congrArg Word.direct (BitVec.eq_of_toNat_eq (hxa.trans hya.symm))) hne
  -- An atom that fits into a word is direct on both sides.
  · have := xdata.isLt
    omega
  · have := ydata.isLt
    omega
  · obtain rfl := data_eq_of_value_eq (hxa.trans hya.symm) hxl hyl
    refine meets_of_unify hlaid h hx hy hne hxn hyn ?_
    simp [compareAllocated, hxo, hyo]

theorem read_head {head tail : Word} (h : m.heap.object ptr = some (.cell head tail)) :
    m.read (.head ptr) = some head := read_head_eq_some.2 ⟨tail, h⟩

theorem read_tail {head tail : Word} (h : m.heap.object ptr = some (.cell head tail)) :
    m.read (.tail ptr) = some tail := read_tail_eq_some.2 ⟨head, h⟩

theorem object_of_read (hhead : m.read (.head ptr) = some v)
    (htail : m.read (.tail ptr) = some w) : m.heap.object ptr = some (.cell v w) := by
  obtain ⟨t, hobject⟩ := read_head_eq_some.1 hhead
  rw [read_tail hobject] at htail
  cases htail
  exact hobject

/-- A field of a larger cell. -/
theorem not_below_of_denotes {form : Form} {z : Slot}
    (h : m.heap.Denotes (.allocated .cell form ptr) n) (hlt : sizeOf k < sizeOf n)
    (hz : z = .head ptr ∨ z = .tail ptr) : ¬ Below m z k := by
  intro hbelow
  obtain ⟨p, c, hp, hc, hle⟩ := hbelow
  have hptr : p = ptr := by
    rcases hz with rfl | rfl <;> rcases hp with hp | hp <;> cases hp <;> rfl
  subst hptr
  rw [hc.unique_of_ptr h] at hle
  omega

/-- A slot that holds a noun at least as large: the cell that it is a field of is larger still. -/
theorem not_below_of_holds (hx : m.read x = some w) (hw : m.heap.Denotes w n)
    (hle : sizeOf k ≤ sizeOf n) : ¬ Below m x k := by
  intro hbelow
  obtain ⟨ptr, c, hptr, hc, hck⟩ := hbelow
  cases hc with
  | @cell _ _ head tail c1 c2 hobject hhead htail =>
    rw [Noun.cell.sizeOf_spec] at hck
    rcases hptr with rfl | rfl
    · rw [read_head hobject] at hx
      cases hx
      have := congrArg sizeOf (hhead.unique hw)
      omega
    · rw [read_tail hobject] at hx
      cases hx
      have := congrArg sizeOf (htail.unique hw)
      omega

/-- A pair of children, which is put on the work stack only where the two words differ. -/
theorem meets_child {pair : List (Slot × Slot)} (h : Sound space home m) (hx : m.read x = some xw)
    (hy : m.read y = some yw) (hpair : pair = if xw = yw then [] else [(x, y)])
    (hmeets : Meets space home m x y n q) : ∃ turns m', Joined space home m m' x y ∧
      (∀ z, z ≠ x → z ≠ y → ¬ Below m z n → m'.read z = m.read z) ∧
      ∀ fuel, loop space (fuel + turns) m (pair ++ q) = loop space fuel m' q := by
  subst hpair
  by_cases heq : xw = yw
  · subst heq
    rw [if_pos rfl]
    exact ⟨0, m, ⟨.refl m, h, hx.trans hy.symm⟩, fun _ _ _ _ => rfl, fun _ => rfl⟩
  · rwa [if_neg heq]

theorem Below.of_preserves {z : Slot} (h : Below m' z k) (hpreserves : m.Preserves m')
    (hle : sizeOf k ≤ sizeOf n) : Below m z n := by
  obtain ⟨ptr, c, hz, hc, hck⟩ := h
  exact ⟨ptr, c, hz, (hpreserves.denotes _ _).2 hc, hck.trans hle⟩

theorem below_of_denotes {form : Form} {z : Slot}
    (h : m.heap.Denotes (.allocated .cell form ptr) n) (hz : z = .head ptr ∨ z = .tail ptr) :
    Below m z n := by
  cases h with
  | cell _ hobject hhead htail => exact ⟨ptr, _, hz, .cell _ hobject hhead htail, le_refl _⟩

variable {xh xt yh yt : Word}

/-- The children of two cells, and then the cells again. -/
theorem compareAllocated_cell
    (hxo : m.heap.object xptr = some (.cell xh xt)) (hyo : m.heap.object yptr = some (.cell yh yt))
    (hne : ¬ (xh = yh ∧ xt = yt)) : compared space m x y q .cell xform xptr .cell yform yptr =
      some (.next m ((if xh = yh then [] else [(.head xptr, .head yptr)]) ++
        ((if xt = yt then [] else [(.tail xptr, .tail yptr)]) ++ (x, y) :: q))) := by
  by_cases hh : xh = yh
  · have ht : xt ≠ yt := fun ht => hne ⟨hh, ht⟩
    simp [compareAllocated, hxo, hyo, hh, ht]
  · by_cases ht : xt = yt <;> simp [compareAllocated, hxo, hyo, hh, ht]

theorem compareAllocated_cell_same {h t : Word}
    (hxo : m.heap.object xptr = some (.cell h t)) (hyo : m.heap.object yptr = some (.cell h t)) :
    compared space m x y q .cell xform xptr .cell yform yptr =
      unified space m x y (.allocated .cell xform xptr) (.allocated .cell yform yptr) q xform xptr
        yform yptr := by
  simp [compareAllocated, hxo, hyo]

/-- Every pair that holds the noun is joined. -/
def AllMeet (space : NounSpace) (home : Nat → WithTop Nat) (n : Noun) : Prop :=
  ∀ {m : Memory} {x y : Slot} {xw yw : Word} {q : List (Slot × Slot)}, Sound space home m →
    m.read x = some xw → m.read y = some yw → m.heap.Denotes xw n → m.heap.Denotes yw n →
      Meets space home m x y n q

/-- The heads of two equal cells and then their tails are joined. The second part leaves the heads,
which are fields of larger cells, and both leave the two slots that the cells are in. -/
theorem children_meet {a b : Noun} (iha : AllMeet space home a) (ihb : AllMeet space home b)
    (h : Sound space home m) (hx : m.read x = some (.allocated .cell xform xptr))
    (hy : m.read y = some (.allocated .cell yform yptr))
    (hxn : m.heap.Denotes (.allocated .cell xform xptr) (.cell a b))
    (hyn : m.heap.Denotes (.allocated .cell yform yptr) (.cell a b))
    (hxo : m.heap.object xptr = some (.cell xh xt)) (hyo : m.heap.object yptr = some (.cell yh yt)) :
    ∃ turns m', m.Preserves m' ∧ Sound space home m' ∧ m'.read x = m.read x ∧
      m'.read y = m.read y ∧ m'.heap.object xptr = m'.heap.object yptr ∧
      (∀ z, ¬ Below m z (.cell a b) → m'.read z = m.read z) ∧
      ∀ fuel, loop space (fuel + turns) m ((if xh = yh then [] else [(.head xptr, .head yptr)]) ++
          ((if xt = yt then [] else [(.tail xptr, .tail yptr)]) ++ (x, y) :: q)) =
        loop space fuel m' ((x, y) :: q) := by
  have hsize : sizeOf (Noun.cell a b) = 1 + sizeOf a + sizeOf b := Noun.cell.sizeOf_spec a b
  obtain ⟨_, _, hxo', hxa, hxb⟩ := hxn.fields
  cases hxo.symm.trans hxo'
  obtain ⟨_, _, hyo', hya, hyb⟩ := hyn.fields
  cases hyo.symm.trans hyo'
  obtain ⟨k1, m1, hj1, hf1, hrun1⟩ := meets_child h (read_head hxo) (read_head hyo) rfl
    (iha (q := (if xt = yt then [] else [(.tail xptr, .tail yptr)]) ++ (x, y) :: q)
      h (read_head hxo) (read_head hyo) hxa hya)
  have hxn1 := (hj1.preserves.denotes _ _).1 hxn
  have hyn1 := (hj1.preserves.denotes _ _).1 hyn
  have hxt1 : m1.read (.tail xptr) = some xt :=
    (hf1 _ (by simp) (by simp) (not_below_of_denotes hxn (by omega) (.inr rfl))).trans
      (read_tail hxo)
  have hyt1 : m1.read (.tail yptr) = some yt :=
    (hf1 _ (by simp) (by simp) (not_below_of_denotes hyn (by omega) (.inr rfl))).trans
      (read_tail hyo)
  obtain ⟨k2, m2, hj2, hf2, hrun2⟩ := meets_child hj1.sound hxt1 hyt1 rfl
    (ihb (q := (x, y) :: q) hj1.sound hxt1 hyt1 ((hj1.preserves.denotes _ _).1 hxb)
      ((hj1.preserves.denotes _ _).1 hyb))
  -- A slot that is no field of a cell as small as the two is left by both parts.
  have hframe : ∀ z, ¬ Below m z (.cell a b) → m2.read z = m.read z := by
    intro z hz
    have hne : ∀ {form ptr}, m.heap.Denotes (.allocated .cell form ptr) (.cell a b) →
        z ≠ .head ptr ∧ z ≠ .tail ptr := fun hptr =>
      ⟨fun heq => hz (below_of_denotes hptr (.inl heq)),
        fun heq => hz (below_of_denotes hptr (.inr heq))⟩
    have hz1 := hf1 z (hne hxn).1 (hne hyn).1
      (fun hbelow => hz (hbelow.of_preserves (.refl m) (by omega)))
    have hz2 := hf2 z (hne hxn).2 (hne hyn).2
      (fun hbelow => hz (hbelow.of_preserves hj1.preserves (by omega)))
    exact hz2.trans hz1
  have hheads : m2.read (.head xptr) = m2.read (.head yptr) :=
    calc m2.read (.head xptr) = m1.read (.head xptr) :=
          hf2 _ (by simp) (by simp) (not_below_of_denotes hxn1 (by omega) (.inl rfl))
      _ = m1.read (.head yptr) := hj1.read_eq
      _ = m2.read (.head yptr) :=
          (hf2 _ (by simp) (by simp) (not_below_of_denotes hyn1 (by omega) (.inl rfl))).symm
  refine ⟨k2 + k1, m2, hj1.preserves.trans hj2.preserves, hj2.sound,
    hframe x (not_below_of_holds hx hxn le_rfl), hframe y (not_below_of_holds hy hyn le_rfl), ?_,
    hframe, fun fuel => ?_⟩
  · obtain ⟨_, _, hxo2, -, -⟩ := ((hj2.preserves.denotes _ _).1 hxn1).fields
    have hyo2 := object_of_read (hheads ▸ read_head hxo2) (hj2.read_eq ▸ read_tail hxo2)
    rw [hxo2, hyo2]
  · rw [← Nat.add_assoc, hrun1, hrun2]

/-- Two words that stand for one noun are found equal, by induction on the noun. -/
theorem allMeet (hlaid : space.Laid) (n : Noun) : AllMeet space home n := by
  induction n with
  | atom a => exact fun h => meets_atom hlaid h
  | cell a b iha ihb =>
    intro m x y xw yw q h hx hy hxn hyn
    by_cases hne : xw = yw
    · subst hne
      exact meets_of_eq h hx hy
    obtain ⟨xform, xptr, xh, xt, rfl, hxo, -, -⟩ := hxn.cell_cases
    obtain ⟨yform, yptr, yh, yt, rfl, hyo, -, -⟩ := hyn.cell_cases
    by_cases hsame : xh = yh ∧ xt = yt
    · obtain ⟨rfl, rfl⟩ := hsame
      exact meets_of_unify hlaid h hx hy hne hxn hyn (compareAllocated_cell_same hxo hyo)
    -- The halves are pushed and unified first; then the cells have the same fields.
    obtain ⟨turns, m', hpreserves, hsound, hx', hy', hobject, hframe, hrun⟩ :=
      children_meet (q := q) iha ihb h hx hy hxn hyn hxo hyo
    have hxn' := (hpreserves.denotes _ _).1 hxn
    have hyn' := (hpreserves.denotes _ _).1 hyn
    obtain ⟨_, _, hxo', -, -⟩ := hxn'.fields
    obtain ⟨last, m'', hj, hf, hlast⟩ := meets_of_unify (q := q) hlaid hsound
      (hx'.trans hx) (hy'.trans hy) hne hxn' hyn'
      (compareAllocated_cell_same hxo' (hobject ▸ hxo'))
    refine ⟨last + turns + 1, m'', ⟨hpreserves.trans hj.preserves, hj.sound, hj.read_eq⟩, ?_, ?_⟩
    · intro z hzx hzy hz
      exact (hf z hzx hzy fun hbelow => hz (hbelow.of_preserves hpreserves le_rfl)).trans
        (hframe z hz)
    intro fuel
    have hturn : turn space m x y q = _ := unifyTurn_of_allocated hx hy hne
    rw [mugsDiffer_eq_false h hxn hyn,
      compareAllocated_cell hxo hyo hsame] at hturn
    rw [← Nat.add_assoc, ← Nat.add_assoc, loop_next hturn, hrun, hlast]

/-! ### A pair that holds two nouns -/

/-- The loop ends at the pair on top of the work stack. -/
def Breaks (space : NounSpace) (home : Nat → WithTop Nat) (m : Memory) (x y : Slot)
    (q : List (Slot × Slot)) : Prop :=
  ∃ turns m', m.Preserves m' ∧ Sound space home m' ∧
    ∀ fuel, loop space (fuel + turns) m ((x, y) :: q) = some m'

theorem breaks_of_brk (h : Sound space home m)
    (hturn : turn space m x y q = some (.brk m)) : Breaks space home m x y q :=
  ⟨1, m, .refl m, h, fun fuel => by simp [loop, unifyLoop, hturn]⟩

/-- The children of two cells, of which the heads or the tails differ. -/
theorem breaks_cell (hlaid : space.Laid) {a b a' b' : Noun}
    (iha : ∀ {m x y xw yw k q}, Sound space home m → m.read x = some xw → m.read y = some yw →
      m.heap.Denotes xw a → m.heap.Denotes yw k → a ≠ k → Breaks space home m x y q)
    (ihb : ∀ {m x y xw yw k q}, Sound space home m → m.read x = some xw → m.read y = some yw →
      m.heap.Denotes xw b → m.heap.Denotes yw k → b ≠ k → Breaks space home m x y q)
    (h : Sound space home m)
    (hxo : m.heap.object xptr = some (.cell xh xt)) (hyo : m.heap.object yptr = some (.cell yh yt))
    (hxa : m.heap.Denotes xh a) (hxb : m.heap.Denotes xt b) (hya : m.heap.Denotes yh a')
    (hyb : m.heap.Denotes yt b') (hne : ¬ (a = a' ∧ b = b')) :
    ∃ turns m', m.Preserves m' ∧ Sound space home m' ∧
      ∀ fuel, loop space (fuel + turns) m ((if xh = yh then [] else [(.head xptr, .head yptr)]) ++
        ((if xt = yt then [] else [(.tail xptr, .tail yptr)]) ++ q)) = some m' := by
  by_cases haa : a = a'
  · subst haa
    have hbb : b ≠ b' := fun hbb => hne ⟨rfl, hbb⟩
    have hxy : xt ≠ yt := fun heq => hbb (hxb.unique (heq ▸ hyb))
    -- The heads are joined, and the tails still hold what they held.
    obtain ⟨k1, m1, hj1, -, hrun1⟩ := meets_child h (read_head hxo) (read_head hyo) rfl
      (allMeet hlaid a h (read_head hxo) (read_head hyo) hxa hya
        (q := (if xt = yt then [] else [(.tail xptr, .tail yptr)]) ++ q))
    obtain ⟨u, hu, hub⟩ := hj1.preserves.holds (.tail xptr) b ⟨xt, read_tail hxo, hxb⟩
    obtain ⟨v, hv, hvb⟩ := hj1.preserves.holds (.tail yptr) b' ⟨yt, read_tail hyo, hyb⟩
    obtain ⟨k2, m2, hpreserves, hsound, hrun2⟩ := ihb (q := q) hj1.sound hu hv hub hvb hbb
    refine ⟨k2 + k1, m2, hj1.preserves.trans hpreserves, hsound, fun fuel => ?_⟩
    rw [← Nat.add_assoc, hrun1, if_neg hxy]
    exact hrun2 fuel
  · have hxy : xh ≠ yh := fun heq => haa (hxa.unique (heq ▸ hya))
    rw [if_neg hxy]
    exact iha h (read_head hxo) (read_head hyo) hxa hya haa

/-- Different nouns are in different words, and their mugs may tell it at once. -/
theorem breaks_of_compare (h : Sound space home m)
    (hx : m.read x = some (.allocated xkind xform xptr))
    (hy : m.read y = some (.allocated ykind yform yptr))
    (hne : Word.allocated xkind xform xptr ≠ .allocated ykind yform yptr)
    (hcompare : compared space m x y q xkind xform xptr ykind yform yptr = some (.brk m)) :
    Breaks space home m x y q := by
  refine breaks_of_brk h ?_
  rw [unifyTurn_of_allocated hx hy hne, hcompare]
  split <;> rfl

section

variable (h : Sound space home m) (hx : m.read x = some xw) (hy : m.read y = some yw)

include h hx hy

theorem breaks_of_direct (hne : xw ≠ yw)
    (hdirect : (∃ data, xw = .direct data) ∨ ∃ data, yw = .direct data) :
    Breaks space home m x y q := by
  refine breaks_of_brk h ?_
  rcases hdirect with ⟨data, rfl⟩ | ⟨data, rfl⟩
  · simp [unifyTurn, hx, hy, hne]
  · cases xw <;> simp [unifyTurn, hx, hy, hne]

theorem breaks_atom {a : Nat} (hxn : m.heap.Denotes xw (.atom a)) (hyk : m.heap.Denotes yw k)
    (hnk : .atom a ≠ k) : Breaks space home m x y q := by
  have hne : xw ≠ yw := fun heq => hnk (hxn.unique (heq ▸ hyk))
  rcases hxn.atom_cases with ⟨xdata, rfl, -⟩ | ⟨xform, xptr, xdata, rfl, hxo, -, -, hxa⟩
  · exact breaks_of_direct h hx hy hne (.inl ⟨xdata, rfl⟩)
  cases k with
  | atom b =>
    rcases hyk.atom_cases with ⟨ydata, rfl, -⟩ | ⟨yform, yptr, ydata, rfl, hyo, -, -, hyb⟩
    · exact breaks_of_direct h hx hy hne (.inr ⟨ydata, rfl⟩)
    · have hdata : xdata ≠ ydata := by
        rintro rfl
        exact hnk (congrArg Noun.atom (hxa.symm.trans hyb))
      exact breaks_of_compare h hx hy hne (by simp [compareAllocated, hxo, hyo, hdata])
  | cell c d =>
    obtain ⟨yform, yptr, yh, yt, rfl, -, -, -⟩ := hyk.cell_cases
    exact breaks_of_compare h hx hy hne (by simp [compareAllocated])

end

/-- Two words that stand for different nouns are found to differ, by induction on the first. -/
theorem breaks_of_denotes (hlaid : space.Laid) (h : Sound space home m) (hx : m.read x = some xw)
    (hy : m.read y = some yw) (hxn : m.heap.Denotes xw n) (hyk : m.heap.Denotes yw k)
    (hnk : n ≠ k) : Breaks space home m x y q := by
  induction n generalizing m x y xw yw k q with
  | atom a => exact breaks_atom h hx hy hxn hyk hnk
  | cell a b iha ihb =>
    have hne : xw ≠ yw := fun heq => hnk (hxn.unique (heq ▸ hyk))
    obtain ⟨xform, xptr, xh, xt, rfl, hxo, hxa, hxb⟩ := hxn.cell_cases
    cases k with
    | atom c =>
      rcases hyk.atom_cases with ⟨ydata, rfl, -⟩ | ⟨yform, yptr, ydata, rfl, -, -, -, -⟩
      · exact breaks_of_direct h hx hy hne (.inr ⟨ydata, rfl⟩)
      · exact breaks_of_compare h hx hy hne (by simp [compareAllocated])
    | cell c d =>
      obtain ⟨yform, yptr, yh, yt, rfl, hyo, hya, hyb⟩ := hyk.cell_cases
      have hcd : ¬ (a = c ∧ b = d) := fun ⟨hac, hbd⟩ => hnk (hac ▸ hbd ▸ rfl)
      have hchildren : ¬ (xh = yh ∧ xt = yt) := fun ⟨hh, ht⟩ =>
        hcd ⟨hxa.unique (hh ▸ hya), hxb.unique (ht ▸ hyb)⟩
      have hturn : turn space m x y q = _ := unifyTurn_of_allocated hx hy hne
      cases hmugs : mugsDiffer m.heap xptr yptr with
      | true => exact breaks_of_brk h (by rw [hturn, if_pos hmugs])
      | false =>
        rw [if_neg (by simp [hmugs]), compareAllocated_cell hxo hyo hchildren] at hturn
        obtain ⟨turns, m', hpreserves, hsound, hrun⟩ :=
          breaks_cell (q := (x, y) :: q) hlaid iha ihb h hxo hyo hxa hxb hya hyb hcd
        refine ⟨turns + 1, m', hpreserves, hsound, fun fuel => ?_⟩
        rw [← Nat.add_assoc, loop_next hturn, hrun]

/-! ### The comparison -/

theorem loop_nil (fuel : Nat) (m : Memory) : loop space (fuel + 1) m [] = some m := rfl

/-- The loop from one pair ends with memory in which all meanings are kept, and in which the two
slots have the same word where they hold the same noun. -/
theorem loop_of_denotes (hlaid : space.Laid) (h : Sound space home m) (hx : m.read x = some xw)
    (hy : m.read y = some yw) (hxn : m.heap.Denotes xw n) (hyk : m.heap.Denotes yw k) :
    ∃ bound m', m.Preserves m' ∧ Sound space home m' ∧ (m'.read x = m'.read y ↔ n = k) ∧
      ∀ fuel, bound ≤ fuel → loop space fuel m [(x, y)] = some m' := by
  by_cases hnk : n = k
  · subst hnk
    obtain ⟨turns, m', hjoined, -, hrun⟩ := allMeet hlaid n h hx hy hxn hyk (q := [])
    refine ⟨turns + 1, m', hjoined.preserves, hjoined.sound, iff_of_true hjoined.read_eq rfl, ?_⟩
    intro fuel hfuel
    obtain ⟨rest, rfl⟩ : ∃ rest, fuel = rest + 1 + turns := ⟨fuel - 1 - turns, by omega⟩
    rw [hrun, loop_nil]
  · obtain ⟨turns, m', hpreserves, hsound, hrun⟩ :=
      breaks_of_denotes (q := []) hlaid h hx hy hxn hyk hnk
    refine ⟨turns, m', hpreserves, hsound, iff_of_false ?_ hnk, ?_⟩
    · -- The two slots still hold the two nouns.
      obtain ⟨u, hu, hun⟩ := hpreserves.holds x n ⟨xw, hx, hxn⟩
      obtain ⟨v, hv, hvk⟩ := hpreserves.holds y k ⟨yw, hy, hyk⟩
      intro heq
      cases hu.symm.trans (heq.trans hv)
      exact hnk (hun.unique hvk)
    · intro fuel hfuel
      obtain ⟨rest, rfl⟩ : ∃ rest, fuel = rest + turns := ⟨fuel - turns, by omega⟩
      exact hrun rest

theorem mugged_eq_false (h : Sound space home m) (hxn : m.heap.Denotes xw n)
    (hyn : m.heap.Denotes yw n) : unifyingEquality.mugged m xw yw = false := by
  cases xw <;> cases yw <;> simp [unifyingEquality.mugged]
  exact mugsDiffer_eq_false h hxn hyn

/-- The comparison ends, and says whether two nouns are equal. Whatever it says, every word and every
slot stands for the noun that it stood for, and no slot refers to a lower level than its own. -/
theorem unifyingEquality_decides (hlaid : space.Laid) (h : Sound space home m)
    (hx : m.read x = some xw) (hy : m.read y = some yw) (hxn : m.heap.Denotes xw n)
    (hyk : m.heap.Denotes yw k) : ∃ bound m', (∀ fuel, bound ≤ fuel →
        unifyingEquality fuel space m x y = some (decide (n = k), m')) ∧
      (∀ w c, m.heap.Denotes w c ↔ m'.heap.Denotes w c) ∧ (∀ z c, m.Holds z c → m'.Holds z c) ∧
      ∀ z w, m'.read z = some w → slotLevel space home z ≤ space.wordLevel w := by
  by_cases heq : xw = yw
  · subst heq
    have hnk := hxn.unique hyk
    refine ⟨0, m, fun fuel _ => ?_, fun _ _ => Iff.rfl, fun _ _ hz => hz, h.senior⟩
    simp [unifyingEquality, hx, hy, hnk]
  cases hmugs : unifyingEquality.mugged m xw yw with
  | true =>
    have hnk : n ≠ k := by
      rintro rfl
      simp [mugged_eq_false h hxn hyk] at hmugs
    refine ⟨0, m, fun fuel _ => ?_, fun _ _ => Iff.rfl, fun _ _ hz => hz, h.senior⟩
    simp [unifyingEquality, hx, hy, heq, hmugs, hnk]
  | false =>
    obtain ⟨bound, m', hpreserves, hsound, hiff, hrun⟩ := loop_of_denotes hlaid h hx hy hxn hyk
    refine ⟨bound, m', fun fuel hfuel => ?_, hpreserves.denotes, hpreserves.holds, hsound.senior⟩
    obtain ⟨u, hu, -⟩ := hpreserves.holds x n ⟨xw, hx, hxn⟩
    obtain ⟨v, hv, -⟩ := hpreserves.holds y k ⟨yw, hy, hyk⟩
    rw [hu, hv, Option.some.injEq] at hiff
    have hloop : unifyLoop (pushed space) (space.stack.framePush 0).currentFrameBounds fuel m
      [(x, y)] = some m' := hrun fuel hfuel
    simp only [pushed] at hloop
    simp [unifyingEquality, hx, hy, heq, hmugs, hloop, hu, hv, hiff]

end

/-! ### Two copies of one cell -/

/-- A stack with one frame, in which two cells are allocated. -/
def twoCellSpace : NounSpace := ⟨⟨4096, 100, ⟨4120, 4120, 4848⟩, []⟩, none⟩

/-- The cell `[1 2]` twice, in two variables. -/
def twoCells : Memory where
  heap.object ptr := if ptr = 4848 ∨ ptr = 4872 then some (.cell (.direct 1) (.direct 2)) else none
  heap.mug _ := 0
  root i := if i = 0 then .allocated .cell .pointer 4848
    else if i = 1 then .allocated .cell .pointer 4872 else .direct 0

theorem sound_twoCells : Sound twoCellSpace (fun _ => 0) twoCells where
  cached kind form ptr n m _ hm := by simp [Heap.getCachedMug, twoCells] at hm
  placed ptr hptr := by
    have hor : ptr = 4848 ∨ ptr = 4872 := by
      by_contra hnot
      exact hptr (if_neg hnot)
    rcases hor with rfl | rfl <;> decide
  senior x w hx := by
    cases x with
    | root i => exact bot_le
    | head ptr | tail ptr =>
      by_cases hor : ptr = 4848 ∨ ptr = 4872 <;> simp [Memory.read, twoCells, hor] at hx
      exact hx ▸ le_top

theorem unifyingEquality_decides_twoCells : ∃ bound m', ∀ fuel, bound ≤ fuel →
      unifyingEquality fuel twoCellSpace twoCells (.root 0) (.root 1) = some (true, m') := by
  have hlaid : twoCellSpace.Laid :=
    ⟨by simp [NockStack.Nested, NockStack.frames, twoCellSpace, Frame.isWest, NockStack.finish],
      by simp [NockStack.Room, twoCellSpace, Frame.isWest]⟩
  have hfirst : twoCells.heap.Denotes (.allocated .cell .pointer 4848) (.cell (.atom 1) (.atom 2)) :=
    .cell _ rfl (.direct 1) (.direct 2)
  have hsecond : twoCells.heap.Denotes (.allocated .cell .pointer 4872) (.cell (.atom 1) (.atom 2)) :=
    .cell _ rfl (.direct 1) (.direct 2)
  obtain ⟨bound, m', hrun, -⟩ :=
    unifyingEquality_decides hlaid sound_twoCells (x := .root 0) (y := .root 1) rfl rfl hfirst hsecond
  exact ⟨bound, m', by simpa using hrun⟩

end Nockchain.Mem
