import Nockchain.Proofs.Vm.Atomicity

/-!
# `Nockchain.Proofs.Vm.Mean`: the mean stack against the hints

A dynamic hint with one of the tags of `Hint.isMean` pushes its clue on the mean
stack before its body runs. Outside tail position a work item waits for the body and
pops the entry again; in tail position nothing waits, and the entry goes with the
frame.

`EveryTurnWithin` runs the loop with the list of hints that enclose the current point:
a hint encloses what runs from its own height in its own frame upwards, until the work
is back below that height (`OpenHint.isOpen`). `meanRun_of_noStaticMean` says that the
mean stack lists just these hints at each turn, so that each pop removes the entry of
the hint that ends, and an error leaves with the clues of the hints around it.

Two things break this. A static hint with such a tag pushes nothing but pops all the
same (`NoStaticMean`). And an early return leaves the mean stack out of the trace
(`NoEarlyReturn`).
-/

set_option autoImplicit false

namespace Nockchain.Vm

open Nockchain.Lib NockWork NockStack Context List

/-! ### Open hints -/

/-- A hint whose body has begun: the frame and the height in it at which the hint stood, and its
entry on the mean stack. -/
structure OpenHint where
  frame : Nat
  height : Nat
  entry : Noun
deriving DecidableEq, Repr

/-- The body of the hint is not finished: there is still work at the height of the hint. -/
def OpenHint.isOpen (s : NockStack) (h : OpenHint) : Bool :=
  h.frame < s.framePointer || h.frame == s.framePointer && h.height < s.frame.work.length

section

variable {Cold Warm : Type}

/-- The hint whose body begins in the turn at `m`, if any. -/
def begun (m : Machine Cold Warm) : List OpenHint :=
  match m.context.stack.frame.work with
  | [] => []
  | w :: rest =>
    (w.opens m.res).toList.map fun entry => ⟨m.context.stack.framePointer, rest.length, entry⟩

/-- Every turn of the loop from `m` on satisfies `P`, which is given the hints that enclose the
turn, the innermost first. -/
def EveryTurnWithin (env : Env Cold Warm) (recur : Recur Cold Warm)
    (P : List OpenHint → Machine Cold Warm → NockWork → Prop) :
    Nat → List OpenHint → Machine Cold Warm → Prop
  | 0, _, _ => True
  | n + 1, hints, m =>
    ∀ w rest, m.context.stack.frame.work = w :: rest → P hints m.tick w ∧
      ∀ m', step env recur m.tick = .next m' → EveryTurnWithin env recur P n
          ((begun m ++ hints).filter (·.isOpen m'.context.stack)) m'

/-- The mean stack that lists the hints. -/
def traceOf (hints : List OpenHint) : Noun := Noun.ofList (hints.map (·.entry))

/-- What a turn does with the mean stack, if that is to follow the hints around it. -/
structure MeanTurn (env : Env Cold Warm) (recur : Recur Cold Warm) (hints : List OpenHint)
    (m : Machine Cold Warm) (w : NockWork) : Prop where
  /-- a pop removes the entry that the hint of this item has pushed -/
  pop : w.pops = true → ∃ hint rest, hints = hint :: rest ∧ w.entry = some hint.entry ∧
    hint.frame = m.context.stack.framePointer ∧
    hint.height + 1 = m.context.stack.frame.work.length ∧
    m.context.stack.frame.mean = .cell hint.entry (traceOf rest) ∧
    m.context.stack.meanPop = some (m.context.stack.setMean (traceOf rest))
  /-- the error with which the loop is left by `break` gets the entries of the hints -/
  exit : ∀ c e snapshot virtualFrame c' e', stepWork env recur m w = .brk c (.error e) →
    leave c snapshot virtualFrame (.error e) = .err c' e' → e' = exitError (traceOf hints) e
  /-- and so does one with which it is left by `return` -/
  bail : ∀ c e, stepWork env recur m w = .bail c e → e = exitError (traceOf hints) e

/-- The mean stack follows the hints in a run of `interpret`. -/
def MeanRun (env : Env Cold Warm) : Nat → Context Cold Warm → Noun → Noun → Prop
  | 0, _, _, _ => True
  | fuel + 1, c, s, f =>
    0 ≤ c.tick.runningStatus → ∀ m, (start c s).tryPush f true = .next m →
      EveryTurnWithin env (interpret env fuel) (MeanTurn env (interpret env fuel)) fuel [] m

/-- No static hint pops the mean stack: none with one of its tags is evaluated outside tail
position. -/
def NoStaticMean (env : Env Cold Warm) : Nat → Context Cold Warm → Noun → Noun → Prop :=
  EveryRun env (fun _ => True) fun _ _ w =>
    ∀ tag body tail, w = .work11S .done tag body tail → Hint.isMean tag = false

/-! ### The hints of a frame -/

/-- The hints that work items of a frame wait for. -/
def hintsOf (number : Nat) : List NockWork → List OpenHint
  | [] => []
  | w :: rest => w.entry.toList.map (⟨number, rest.length, ·⟩) ++ hintsOf number rest

/-- Every item stands where it may. -/
def AllPlaced : List NockWork → Prop
  | [] => True
  | w :: rest => w.Placed rest.length ∧ AllPlaced rest

theorem frame_of_mem_hintsOf {number : Nat} {ws : List NockWork} {h : OpenHint}
    (hh : h ∈ hintsOf number ws) : h.frame = number ∧ h.height < ws.length := by
  induction ws with
  | nil => simp [hintsOf] at hh
  | cons w rest ih =>
    rcases mem_append.1 hh with hh | hh
    · obtain ⟨_, -, rfl⟩ := mem_map.1 hh
      exact ⟨rfl, Nat.lt_succ_self _⟩
    · exact ⟨(ih hh).1, Nat.lt_succ_of_lt (ih hh).2⟩

theorem NockWork.entry_eq_none {w : NockWork} (h : w.pops = false) : w.entry = none := by
  unfold entry
  split
  · exact if_neg (by simpa [pops] using h)
  · rfl

theorem Formula.entry_work (φ : Formula) (tail : Bool) : (φ.work tail).entry = none := by
  cases φ <;> rfl

theorem Formula.placed_work (φ : Formula) {tail : Bool} {height : Nat}
    (h : tail = decide (height = 1)) : (φ.work tail).Placed height := by
  subst h
  cases φ with
  | hint tag b | clue tag c b => exact ⟨rfl, nofun⟩
  | nock | cond | comp | pin | arm => rfl
  | _ => trivial

/-- A hint that pops keeps its body in tail position. -/
theorem Hint.isTail_of_isMean {tag : Nat} (h : Hint.isMean tag) : Hint.isTail tag := by
  simp only [isMean, Bool.or_eq_true, beq_iff_eq] at h
  rcases h with (((h | h) | h) | h) | h <;> subst h <;> rfl

/-- Nothing in tail position waits for a hint. -/
theorem NockWork.entry_of_placed {w : NockWork} (h : w.Placed 1) : w.entry = none := by
  unfold entry
  split
  · rename_i tag clue body tail
    refine if_neg fun hmean => ?_
    have htail := h.1
    rw [h.2 rfl, Hint.isTail_of_isMean hmean] at htail
    cases htail
  · rfl

/-- The hints of a frame: those that items wait for, and those whose body is the last formula of
the frame. The mean stack of the frame lists them and the hints of the frames below. -/
structure FrameHints (number : Nat) (frame : Frame) (own below : List OpenHint) : Prop where
  placed : AllPlaced frame.work
  own_eq : ∃ tails, own = hintsOf number frame.work ++ tails ∧
    (∀ t ∈ tails, t.frame = number ∧ t.height = 1) ∧ (frame.work.length ≤ 1 → tails = [])
  mean : 2 ≤ frame.work.length → frame.mean = traceOf (own ++ below)

/-- The hints that enclose the current point of a run. -/
inductive Enclosed (caller : NockStack) : Frame → List Frame → List OpenHint → Prop where
  | base {frame : Frame} {own : List OpenHint}
      (h : FrameHints (caller.below.length + 1) frame own []) :
      Enclosed caller frame (caller.frame :: caller.below) (own ++ [])
  | call {frame parent : Frame} {below : List Frame} {own hints : List OpenHint}
      (h : FrameHints (below.length + 1) frame own hints)
      (hparent : Enclosed caller parent below hints) (hwork : 2 ≤ parent.work.length) :
      Enclosed caller frame (parent :: below) (own ++ hints)

variable {caller : NockStack} {frame : Frame} {below : List Frame} {hints : List OpenHint}

theorem FrameHints.isOpen {number : Nat} {own rest : List OpenHint}
    (h : FrameHints number frame own rest) :
    ∀ x ∈ own, x.frame = number ∧ x.height < frame.work.length := by
  obtain ⟨tails, rfl, htails, hlast⟩ := h.own_eq
  intro x hx
  rcases mem_append.1 hx with hx | hx
  · exact frame_of_mem_hintsOf hx
  refine ⟨(htails x hx).1, ?_⟩
  rw [(htails x hx).2]
  by_contra hlen
  rw [hlast (by omega)] at hx
  cases hx

/-- The hints of a run are open. -/
theorem Enclosed.isOpen (h : Enclosed caller frame below hints) :
    ∀ x ∈ hints, x.frame ≤ below.length ∧
      (x.frame = below.length → x.height < frame.work.length) := by
  induction h with
  | base h =>
    intro x hx
    rw [append_nil] at hx
    exact ⟨Nat.le_of_eq (h.isOpen x hx).1, fun _ => (h.isOpen x hx).2⟩
  | call h _ _ ih =>
    intro x hx
    rw [length_cons]
    rcases mem_append.1 hx with hx | hx
    · exact ⟨Nat.le_of_eq (h.isOpen x hx).1, fun _ => (h.isOpen x hx).2⟩
    · have hle := (ih x hx).1
      exact ⟨by omega, fun heq => by omega⟩

/-- The hints that are left once those that are finished are dropped. -/
theorem Enclosed.filter {s : NockStack} {all : List OpenHint}
    (h : Enclosed caller s.frame s.below hints) (closed : List OpenHint) (hall : all = closed ++ hints)
    (hclosed : ∀ x ∈ closed, x.isOpen s = false) :
    Enclosed caller s.frame s.below (all.filter (·.isOpen s)) := by
  have hopen : ∀ x ∈ hints, x.isOpen s := by
    intro x hx
    obtain ⟨hle, hheight⟩ := h.isOpen x hx
    rcases Nat.lt_or_eq_of_le hle with hlt | heq
    · simp [OpenHint.isOpen, framePointer, hlt]
    · simp [OpenHint.isOpen, framePointer, heq, hheight heq]
  have hnone : closed.filter (·.isOpen s) = [] := by
    rw [filter_eq_nil_iff]
    intro x hx
    rw [hclosed x hx]
    exact Bool.false_ne_true
  rwa [hall, filter_append, filter_eq_self.2 hopen, hnone]

/-- The hints of a run are those of the current frame and those of the frames below it. -/
theorem Enclosed.own (h : Enclosed caller frame below hints) :
    ∃ own rest, hints = own ++ rest ∧ FrameHints below.length frame own rest ∧
      ∀ frame' own', FrameHints below.length frame' own' rest →
        Enclosed caller frame' below (own' ++ rest) := by
  cases h with
  | base h => exact ⟨_, [], rfl, h, fun _ _ h' => .base h'⟩
  | call h hparent hwork => exact ⟨_, _, rfl, h, fun _ _ h' => .call h' hparent hwork⟩

namespace FrameHints

variable {number : Nat} {frame' : Frame} {own rest : List OpenHint} {top : NockWork}
  {ws : List NockWork} {res : Noun}

/-- The entry that the turn at the topmost item pushes. -/
abbrev pushed (number : Nat) (top : NockWork) (res : Noun) (ws : List NockWork) : List OpenHint :=
  (top.opens res).toList.map (⟨number, ws.length, ·⟩)

theorem traceOf_pushed (entry : Option Noun) (height : Nat) (l : List OpenHint) :
    pushMean entry (traceOf l) = traceOf (entry.toList.map (⟨number, height, ·⟩) ++ l) := by
  cases entry <;> rfl

section Item

variable (h : FrameHints number frame own rest) (hwork : frame.work = top :: ws) (hws : ws ≠ [])
include h hwork hws

theorem atItem : 1 ≤ ws.length ∧ AllPlaced (top :: ws) ∧ frame.mean = traceOf (own ++ rest) ∧
    ∃ tails, own = hintsOf number (top :: ws) ++ tails ∧
      ∀ t ∈ tails, t.frame = number ∧ t.height = 1 := by
  have hlen : 1 ≤ ws.length := length_pos_iff.2 hws
  obtain ⟨tails, hown, htails, -⟩ := h.own_eq
  rw [← hwork]
  exact ⟨hlen, h.placed, h.mean (by rw [hwork, length_cons]; omega), tails, hown, htails⟩

/-- An operand: the item waits in its next phase. -/
theorem operand {w' : NockWork} (φ : Formula) (hphase : top.Phase res w')
    (hwork' : frame'.work = φ.work false :: w' :: ws)
    (hmean : frame'.mean = pushMean (top.opens res) frame.mean) :
    FrameHints number frame' (pushed number top res ws ++ own) rest := by
  obtain ⟨hlen, hplaced, hold, tails, hown, htails⟩ := h.atItem hwork hws
  constructor
  · rw [hwork']
    exact ⟨φ.placed_work (by simp; omega), hphase.placed _ hplaced.1, hplaced.2⟩
  · refine ⟨tails, ?_, htails, fun hle => ?_⟩
    · rw [hwork', hown]
      simp [hintsOf, φ.entry_work, hphase.entry, entry_eq_none hphase.pops]
    · rw [hwork'] at hle
      simp at hle
  · intro _
    rw [hmean, hold, traceOf_pushed, append_assoc]

/-- The last formula of an item takes its place. A hint that opens now is in tail position. -/
theorem last (hend : ws.length = 1 → hintsOf number ws = []) {tail : Bool} (φ : Formula)
    (hlast : top.Last tail) (hopens : (top.opens res).isSome → tail)
    (hwork' : frame'.work = φ.work tail :: ws)
    (hmean : frame'.mean = pushMean (top.opens res) frame.mean) :
    FrameHints number frame' (pushed number top res ws ++ own) rest := by
  obtain ⟨hlen, hplaced, hold, tails, hown, htails⟩ := h.atItem hwork hws
  have htail := hlast.tail _ hplaced.1
  constructor
  · rw [hwork']
    exact ⟨φ.placed_work htail, hplaced.2⟩
  · have hwork : hintsOf number (φ.work tail :: ws) = hintsOf number (top :: ws) := by
      simp [hintsOf, φ.entry_work, entry_eq_none hlast.pops]
    rw [hwork', hwork, hown]
    cases hentry : top.opens res with
    | none => exact ⟨tails, by simp [pushed, hentry], htails, fun hle => absurd hle (by simp; omega)⟩
    | some entry =>
      have hone : ws.length = 1 := by
        rw [hopens (by rw [hentry]; rfl)] at htail
        simpa using htail.symm
      have hnone : hintsOf number (top :: ws) = [] := by
        simp [hintsOf, entry_eq_none hlast.pops, hend hone]
      refine ⟨⟨number, 1, entry⟩ :: tails, ?_, ?_, fun hle => absurd hle (by simp; omega)⟩
      · simp [pushed, hentry, hnone, hone]
      · intro t ht
        rcases mem_cons.1 ht with rfl | ht
        · exact ⟨rfl, rfl⟩
        · exact htails t ht
  · intro _
    rw [hmean, hold, traceOf_pushed, append_assoc]

/-- The topmost item is done: the hint that it waited for ends, or, where it was the last formula
of the frame, the hints in tail position. -/
theorem finish (hend : ws.length = 1 → hintsOf number ws = [])
    (hstatic : top.pops → top.entry.isSome) (hwork' : frame'.work = ws)
    (hmean : if top.pops then ∃ entry, frame.mean = .cell entry frame'.mean
      else frame'.mean = frame.mean) :
    ∃ closed own', own = closed ++ own' ∧ (∀ x ∈ closed, x.frame = number ∧ x.height = ws.length) ∧
      FrameHints number frame' own' rest := by
  obtain ⟨hlen, hplaced, hold, tails, hown, htails⟩ := h.atItem hwork hws
  by_cases hone : ws.length = 1
  · -- the frame has only its `Ret` or `Done` left, and with it goes the mean stack
    have htop : top.entry = none := entry_of_placed (hone ▸ hplaced.1)
    refine ⟨tails, [], ?_, fun x hx => hone ▸ htails x hx, ?_, ⟨[], ?_, nofun, fun _ => rfl⟩, ?_⟩
    · simp [hown, hintsOf, htop, hend hone]
    · rw [hwork']
      exact hplaced.2
    · rw [hwork', hend hone]
      rfl
    · intro hle
      rw [hwork'] at hle
      omega
  · refine ⟨top.entry.toList.map (⟨number, ws.length, ·⟩), hintsOf number ws ++ tails, ?_, ?_, ?_,
      ⟨tails, by rw [hwork'], htails, fun hle => ?_⟩, fun _ => ?_⟩
    · rw [hown, hintsOf, append_assoc]
    · intro x hx
      obtain ⟨_, -, rfl⟩ := mem_map.1 hx
      exact ⟨rfl, rfl⟩
    · rw [hwork']
      exact hplaced.2
    · rw [hwork'] at hle
      omega
    rw [hown, hintsOf] at hold
    cases hpops : top.pops with
    | false =>
      rw [hpops] at hmean
      rw [entry_eq_none hpops] at hold
      exact (show frame'.mean = frame.mean from hmean).trans hold
    | true =>
      rw [if_pos hpops] at hmean
      obtain ⟨entry, hentry⟩ := Option.isSome_iff_exists.1 (hstatic hpops)
      obtain ⟨_, hcell⟩ := hmean
      rw [hentry, hcell] at hold
      exact (Noun.cell.inj hold).2

/-- A frame whose topmost item waits for a call keeps its hints. -/
theorem wait {w' : NockWork} (hphase : top.Phase res w') (hopens : top.opens res = none)
    (hwork' : frame'.work = w' :: ws) (hmean : frame'.mean = frame.mean) :
    FrameHints number frame' own rest := by
  obtain ⟨hlen, hplaced, hold, tails, hown, htails⟩ := h.atItem hwork hws
  refine ⟨?_, ⟨tails, ?_, htails, fun hle => ?_⟩, fun _ => ?_⟩
  · rw [hwork']
    exact ⟨hphase.placed _ hplaced.1, hplaced.2⟩
  · rw [hown, hwork']
    simp [hintsOf, hphase.entry, hopens, entry_eq_none hphase.pops]
  · rw [hwork', length_cons] at hle
    omega
  · rw [hmean]
    exact hold

end Item

/-- The frame of a run or of a call starts with the mean stack of the hints around it. -/
theorem fresh (φ : Formula) {last : NockWork} (hlast : last.isPlain = false)
    (hwork : frame.work = [φ.work true, last]) (hmean : frame.mean = traceOf rest) :
    FrameHints number frame [] rest := by
  have hend : last.entry = none ∧ last.Placed 0 := by
    cases last with
    | done | ret => exact ⟨rfl, trivial⟩
    | _ => cases hlast
  refine ⟨?_, ⟨[], ?_, nofun, fun _ => rfl⟩, fun _ => hmean⟩
  · rw [hwork]
    exact ⟨φ.placed_work rfl, hend.2, trivial⟩
  · rw [hwork]
    simp [hintsOf, φ.entry_work, hend.1]

end FrameHints

/-! ### Turns -/

/-- Below a plain item there is more work, at least the `Ret` or `Done` of the frame. -/
theorem Framed.rest (h : Framed caller frame below) {top : NockWork} {ws : List NockWork}
    (hs : frame.work = top :: ws) (htop : top.Plain) (number : Nat) :
    ws ≠ [] ∧ (ws.length = 1 → hintsOf number ws = []) := by
  have htail : ∀ {ws' : List NockWork} {last : NockWork}, ws = ws' ++ [last] →
      last.isPlain = false → ws ≠ [] ∧ (ws.length = 1 → hintsOf number ws = []) := by
    intro ws' last hws hlast
    subst hws
    refine ⟨by simp, fun hone => ?_⟩
    have hnil : ws' = [] := by simpa using hone
    subst hnil
    cases last with
    | done | ret => rfl
    | _ => cases hlast
  cases h with
  | base vs hvs hwork | call vs hvs hwork _ =>
    obtain ⟨ws', hws, -⟩ := work_tail hvs htop rfl (hwork.symm.trans hs)
    exact htail hws rfl

/-- `Ret` leaves the hints of its frame. -/
theorem Enclosed.ret {s s' : NockStack} {ws : List NockWork}
    (h : Enclosed caller s.frame s.below hints) (hframed : Framed caller s.frame s.below)
    (hs : s.frame.work = .ret :: ws) (hpop : s.framePop = some s') :
    ∃ closed rest, hints = closed ++ rest ∧ Enclosed caller s'.frame s'.below rest ∧
      ∀ x ∈ closed, x.isOpen s' = false := by
  cases s with
  | mk frame below =>
    cases h with
    | base h =>
      -- the run's own frame ends in `Done`: below it are the caller's frames
      have hturn : StackTurn (.atom 0) _ s' := .ret ws hs hpop
      have hcaller : Framed caller s'.frame s'.below := hframed.turn hturn
      cases hpop
      have hunwind : unwind caller.framePointer caller.frame caller.below = some caller ∧
          caller.framePointer < caller.below.length := hcaller.unwind
      exact absurd hunwind.2 (Nat.lt_irrefl _)
    | call h hparent hwork =>
      cases hpop
      refine ⟨_, _, rfl, hparent, fun x hx => ?_⟩
      have hframe := (h.isOpen x hx).1
      simp [OpenHint.isOpen, framePointer, hframe]

variable {m m' : Machine Cold Warm}

theorem begun_eq {top : NockWork} {ws : List NockWork}
    (hs : m.context.stack.frame.work = top :: ws) :
    begun m = FrameHints.pushed m.context.stack.below.length top m.res ws := by
  simp only [begun, hs]
  rfl

/-- A turn keeps the hints that enclose the current point, unless a static hint pops. -/
theorem Enclosed.turn (hframed : Framed caller m.context.stack.frame m.context.stack.below)
    (h : Enclosed caller m.context.stack.frame m.context.stack.below hints)
    (hturn : StackTurn m.res m.context.stack m'.context.stack)
    (hstatic : ∀ w ws, m.context.stack.frame.work = w :: ws → w.pops → w.entry.isSome) :
    Enclosed caller m'.context.stack.frame m'.context.stack.below
      ((begun m ++ hints).filter (·.isOpen m'.context.stack)) := by
  obtain ⟨own, rest, rfl, hown, hback⟩ := h.own
  cases hturn with
  | work top ws new hs htop hs' _ hbelow hwork =>
    obtain ⟨hne, hend⟩ := hframed.rest hs htop m.context.stack.below.length
    have hback' : ∀ own', FrameHints m.context.stack.below.length m'.context.stack.frame own' rest →
        Enclosed caller m'.context.stack.frame m'.context.stack.below (own' ++ rest) := by
      intro own' hown'
      rw [hbelow]
      exact hback _ _ hown'
    rw [begun_eq hs, ← append_assoc]
    cases hwork with
    | operand φ hphase hmean =>
      exact (hback' _ (hown.operand hs hne φ hphase hs' hmean)).filter [] rfl (by simp)
    | last φ hlast hopens hmean =>
      exact (hback' _ (hown.last hs hne hend φ hlast hopens hs' hmean)).filter [] rfl (by simp)
    | finish hopens hmean =>
      obtain ⟨closed, own', rfl, hclosed, hown'⟩ :=
        hown.finish hs hne hend (hstatic _ _ hs) hs' hmean
      refine (hback' _ hown').filter closed ?_ fun x hx => ?_
      · rw [FrameHints.pushed, hopens]
        simp
      · obtain ⟨hframe, hheight⟩ := hclosed x hx
        have hs'' : m'.context.stack.frame.work = ws := hs'
        simp [OpenHint.isOpen, framePointer, hbelow, hframe, hheight, hs'']
  | call top φ ws parent w hs htop hparent hw hopens hs' hbelow hmean hmean' =>
    obtain ⟨hne, -⟩ := hframed.rest hs htop m.context.stack.below.length
    have hold : m.context.stack.frame.mean = traceOf (own ++ rest) := by
      refine hown.mean ?_
      rw [hs]
      exact Nat.succ_le_succ (length_pos_iff.2 hne)
    have h' : Enclosed caller m'.context.stack.frame m'.context.stack.below
        ([] ++ (own ++ rest)) := by
      rw [hbelow]
      refine .call (.fresh φ rfl hs' (hmean'.trans hold))
        (hback _ _ (hown.wait hs hne hw hopens hparent hmean)) ?_
      rw [hparent]
      exact Nat.succ_le_succ (length_pos_iff.2 hne)
    rw [begun_eq hs, FrameHints.pushed, hopens]
    exact h'.filter [] rfl (by simp)
  | ret ws hs hpop =>
    obtain ⟨closed, hints', hall, h', hclosed⟩ := h.ret hframed hs hpop
    rw [begun_eq hs, hall]
    exact h'.filter closed rfl hclosed

/-- The error that `leave` returns has the mean stack of the current frame in its trace. -/
theorem exitError_of_leave {c c' : Context Cold Warm} {snapshot : ContextSnapshot Cold Warm}
    {virtualFrame : Nat} {e e' : Error}
    (h : leave c snapshot virtualFrame (.error e) = .err c' e') :
    e' = exitError c.stack.frame.mean e := by
  simp only [leave, exit, restore, tick_stack] at h
  split at h
  · cases h
  · cases h
    rfl

/-- What a turn does with the mean stack where the hints enclose it. -/
theorem meanTurn_of_enclosed {env : Env Cold Warm} {recur : Recur Cold Warm}
    {jets clean : Context Cold Warm → Noun → Noun → Prop} (hrec : RunSpec jets clean recur)
    {w : NockWork} {ws : List NockWork}
    (hframed : Framed caller m.context.stack.frame m.context.stack.below)
    (h : Enclosed caller m.context.stack.frame m.context.stack.below hints)
    (hs : m.context.stack.frame.work = w :: ws)
    (hspec : TurnSpec env recur m w (stepWork env recur m w))
    (hnjets : ∀ c s f, nestedCall env m w = some (c, s, f) → jets c s f)
    (hclean : ∀ c s f, nestedCall env m w = some (c, s, f) → clean c s f)
    (hbail : ∀ c e, stepWork env recur m w ≠ .bail c e)
    (hstatic : w.pops → w.entry.isSome) : MeanTurn env recur hints m w := by
  obtain ⟨own, rest, rfl, hown, -⟩ := h.own
  have hlist : w.Plain → m.context.stack.frame.mean = traceOf (own ++ rest) := by
    intro hw
    refine hown.mean ?_
    rw [hs]
    exact Nat.succ_le_succ (length_pos_iff.2 (hframed.rest hs hw 0).1)
  refine ⟨fun hpops => ?_, ?_, fun c e hstep => absurd hstep (hbail c e)⟩
  · have hplain : w.Plain := by
      cases w with
      | done | ret => cases hpops
      | _ => rfl
    obtain ⟨entry, hentry⟩ := Option.isSome_iff_exists.1 (hstatic hpops)
    obtain ⟨tails, rfl, -, -⟩ := hown.own_eq
    have hmean := hlist hplain
    simp only [hs, hintsOf, hentry] at hmean
    refine ⟨⟨m.context.stack.below.length, ws.length, entry⟩,
      hintsOf m.context.stack.below.length ws ++ tails ++ rest, ?_, hentry, rfl, ?_, hmean, ?_⟩
    · simp [hs, hintsOf, hentry]
    · rw [hs, length_cons]
    · simp only [meanPop, hmean]
      rfl
  · intro c e snapshot virtualFrame c' e' hstep hleave
    have hplain : w.Plain := by
      cases w with
      | done | ret =>
        simp only [stepWork] at hstep
        split at hstep <;> cases hstep
      | _ => rfl
    have hmean : c.stack.frame.mean = m.context.stack.frame.mean := by
      rw [hstep] at hspec
      rcases hspec with ⟨_, hstack, -⟩ | ⟨c1, s1, f1, e1, hcall, hb, herr⟩
      · rw [hstack]
        rfl
      · have hrestored := hrec.restored _ _ _ _ _ (hnjets _ _ _ hcall) herr (hclean _ _ _ hcall)
        rw [hrestored.stack, hb.stack]
    rw [exitError_of_leave hleave, hmean, hlist hplain]

/-! ### Runs -/

/-- The mean stack follows the hints as long as the loop runs. -/
theorem everyTurnWithin_mean {env : Env Cold Warm} {recur : Recur Cold Warm}
    {jets clean static : Context Cold Warm → Noun → Noun → Prop} (hrec : RunSpec jets clean recur)
    (n : Nat) : ∀ (hints : List OpenHint) (m : Machine Cold Warm),
      Framed caller m.context.stack.frame m.context.stack.below →
      Enclosed caller m.context.stack.frame m.context.stack.below hints →
      EveryTurn env recur (JetBalanced env) jets n m →
      EveryTurn env recur (fun m w => ∀ c e, stepWork env recur m w ≠ .bail c e) clean n m →
      EveryTurn env recur (fun _ w => ∀ tag body tail, w = .work11S .done tag body tail →
        Hint.isMean tag = false) static n m →
      EveryTurnWithin env recur (MeanTurn env recur) n hints m := by
  induction n with
  | zero => exact fun _ _ _ _ _ _ _ => trivial
  | succ n ih =>
    intro hints m hframed henclosed hjets hclean hstatic w ws hs
    obtain ⟨hjet, hnjets, hjets'⟩ := hjets w ws hs
    obtain ⟨hbail, hnclean, hclean'⟩ := hclean w ws hs
    obtain ⟨hpop, -, hstatic'⟩ := hstatic w ws hs
    have hentry : w.pops → w.entry.isSome := by
      intro hpops
      unfold pops at hpops
      split at hpops
      · simp [entry, hpops]
      · rw [hpop _ _ _ rfl] at hpops
        cases hpops
      · cases hpops
    have hs' : m.context.tick.stack.frame.work = w :: ws := by rw [tick_stack]; exact hs
    have hspec := stepWork_spec (m := m.tick) hs' hjet
      fun c1 s1 f1 c2 r hcall hok => (hrec.ok _ _ _ _ _ (hnjets _ _ _ hcall) hok).1
    have hstep : step env recur m.tick = stepWork env recur m.tick w := by
      simp only [step, hs']
    have htick : m.context.tick.stack = m.context.stack := tick_stack _
    have hframed' : Framed caller m.context.tick.stack.frame m.context.tick.stack.below := by
      rwa [htick]
    have henclosed' :
        Enclosed caller m.context.tick.stack.frame m.context.tick.stack.below hints := by
      rwa [htick]
    constructor
    · exact meanTurn_of_enclosed hrec hframed' henclosed' hs' hspec hnjets hnclean hbail hentry
    intro m' hnext
    rw [hstep] at hnext
    rw [hnext] at hspec
    have hturn : StackTurn m.res m.context.stack m'.context.stack := by
      rw [← htick]
      exact hspec.1
    have hnext' := hstep.trans hnext
    refine ih _ m' (hframed.turn hturn) (henclosed.turn hframed hturn ?_) (hjets' m' hnext')
      (hclean' m' hnext') (hstatic' m' hnext')
    intro w' ws' hw'
    rw [hs] at hw'
    cases hw'
    exact hentry

/-- In every run without an early return in which no static hint pops the mean stack, each pop
removes the entry of the hint that ends, and each error is returned with the entries of the hints
that enclose the turn which raised it. -/
theorem meanRun_of_noStaticMean (env : Env Cold Warm) (fuel : Nat) (c : Context Cold Warm)
    (s f : Noun) (hjets : JetsBalanced env fuel c s f) (hclean : NoEarlyReturn env fuel c s f)
    (hstatic : NoStaticMean env fuel c s f) : MeanRun env fuel c s f := by
  cases fuel with
  | zero => trivial
  | succ fuel =>
    intro hlive m hm
    obtain ⟨φ, hpush⟩ | hbail := tryPush_cases (start c s) f true
    · rw [hpush] at hm
      cases hm
      have hbelow : (start c s).context.stack.below = c.stack.frame :: c.stack.below := by
        show c.tick.stack.frame :: c.tick.stack.below = _
        rw [tick_stack]
      refine everyTurnWithin_mean (interpret_spec env fuel) fuel [] _
        (framed_start (φ.work_isPlain true)) ?_ ((hjets hlive).2 _ hpush)
        ((hclean hlive).2 _ hpush) ((hstatic hlive).2 _ hpush)
      show Enclosed c.stack _ (start c s).context.stack.below ([] ++ [])
      rw [hbelow]
      exact .base (.fresh φ rfl rfl rfl)
    · rw [hbail] at hm
      cases hm

end

/-! ### Concrete runs -/

/-- `[4 11 %mean 1 0]`: a static hint outside tail position. -/
def staticMean : Noun :=
  .cell (.atom 4) (.cell (.atom 11) (.cell (.atom (Noun.tas "mean")) (.cell (.atom 1) (.atom 0))))

/-- A static hint pops an entry that nothing has pushed. Here there is none at all, and the
interpreter panics where the rules have a value. -/
theorem interpret_staticMean_panics : Reduces (.atom 0) staticMean (some (.atom 1)) ∧
    interpret Env.plain 5 Context.plain (.atom 0) staticMean = some .panic ∧
    ¬ MeanRun Env.plain 5 Context.plain (.atom 0) staticMean := by
  refine ⟨?_, rfl, fun hrun => ?_⟩
  · have hconst : Evals rules (rules (.atom 0, .cell (.atom 1) (.atom 0))) (.ok (.atom 0)) := .pure _
    exact .callOk (.callOk hconst (.pure _)) (.pure _)
  · have hturns := hrun (by decide) _ rfl
    have hlast := (((hturns _ _ rfl).2 _ rfl _ _ rfl).2 _ rfl _ _ rfl).2 _ rfl _ _ rfl
    obtain ⟨_, _, -, hentry, -⟩ := hlast.1.pop rfl
    cases hentry

/-- `[11 [%mean 1 5] 0 0]`: a crash under a hint. -/
def crashUnderMean : Noun :=
  .cell (.atom 11) (.cell (.cell (.atom (Noun.tas "mean")) (.cell (.atom 1) (.atom 5)))
    (.cell (.atom 0) (.atom 0)))

theorem noStaticMean_crashUnderMean :
    NoStaticMean Env.plain 6 plain (.atom 0) crashUnderMean := by
  refine fun _ => ⟨trivial, fun m hm => ?_⟩
  cases hm
  -- the hint, its clue, the hint again, and the slot that crashes
  iterate 4
    intro w ws hs
    cases hs
    refine ⟨nofun, nofun, fun m hm => ?_⟩
    cases hm

/-- The trace of the crash is the clue of the hint around it. -/
theorem meanRun_crashUnderMean : MeanRun Env.plain 6 Context.plain (.atom 0) crashUnderMean ∧
    ∃ c', interpret Env.plain 6 Context.plain (.atom 0) crashUnderMean = some (.err c'
      (.deterministic .exit (Noun.ofList [.cell (.atom (Noun.tas "mean")) (.atom 5)]))) := by
  have hjets := jetsBalanced_plain 6 plain (.atom 0) crashUnderMean
  refine ⟨meanRun_of_noStaticMean _ _ _ _ _ hjets ?_ noStaticMean_crashUnderMean, _, rfl⟩
  exact noEarlyReturn_of_restored hjets rfl ⟨rfl, rfl, rfl, rfl, .inl rfl⟩

end Nockchain.Vm
