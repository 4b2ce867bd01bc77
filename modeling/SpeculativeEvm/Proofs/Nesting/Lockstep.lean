import SpeculativeEvm.Proofs.Execute.Paired
import SpeculativeEvm.Proofs.Nesting.Frame

/-! Two runs side by side that differ in their level and in what the tables hold at other levels.
They take the same steps: instructions read of the tables only the level below, after they have
cleared it, and of the level nothing but which entries those are. -/

namespace SpeculativeEvm

open SpeculativeEvm.Action Machine Execute

variable {σ : Type} {own : Prop}

/-- The runs differ in level and tables only, and where `own` holds, not in what the tables hold at
the level of the frame at work. -/
structure Speculation.Twin (own : Prop) (s t : Speculation) : Prop where
  overlay : t.overlay = s.overlay
  accesses : t.accesses = s.accesses
  outcome : t.outcome = s.outcome
  payloads (h : own) : t.payloads t.level = s.payloads s.level
  created (h : own) : t.created? t.level = s.created? s.level

structure World.Twin (own : Prop) (w v : World σ) : Prop where
  run : w.run.Twin own v.run
  host : v.host = w.host

structure Machine.Twin (own : Prop) (m m' : Machine σ) : Prop where
  frame : m'.frame = m.frame
  world : m.world.Twin own m'.world

namespace Speculation.Twin

theorem clearBelow {s t : Speculation} (h : s.Twin own t) : s.clearBelow.Twin own t.clearBelow where
  overlay := h.overlay
  accesses := h.accesses
  outcome := h.outcome
  payloads ho :=
    t.beneath_clearBelow.own.trans ((h.payloads ho).trans s.beneath_clearBelow.own.symm)
  created ho := by
    have hs : s.clearBelow.created? s.level = s.created? s.level :=
      s.beneath_clearBelow.created (Nat.le_refl _)
    have ht : t.clearBelow.created? t.level = t.created? t.level :=
      t.beneath_clearBelow.created (Nat.le_refl _)
    exact ht.trans ((h.created ho).trans hs.symm)

theorem handBack {s t : Speculation} (h : s.Twin own t) (output : Bytes) :
    (s.handBack output).Twin own (t.handBack output) := by
  obtain ⟨returned, hs⟩ := s.handBack_eq output
  obtain ⟨returned', ht⟩ := t.handBack_eq output
  have hps := s.payloads_handBack output s.level
  have hpt := t.payloads_handBack output t.level
  refine ⟨?_, ?_, ?_, fun ho => ?_, fun ho => ?_⟩
  · rw [hs, ht]
    exact h.overlay
  · rw [hs, ht]
    exact h.accesses
  · rw [hs, ht]
    exact h.outcome
  · have hl : (s.handBack output).level = s.level := by rw [hs]
    have hl' : (t.handBack output).level = t.level := by rw [ht]
    rw [hl, hl', hps, hpt, h.payloads ho]
    simp only [true_and]
  · rw [hs, ht]
    exact h.created ho

/-- No instruction asks for the level or the tables by itself. -/
theorem lockstep : Lockstep (Speculation.Twin own) where
  overlay h := h.overlay
  outcome h := h.outcome
  recordRead h a := { h with accesses := congrArg (AccessSet.recordRead · a) h.accesses }
  recordWrite h a := { h with accesses := congrArg (AccessSet.recordWrite · a) h.accesses }
  withOverlay h _ := { h with overlay := rfl }
  withOutcome h _ := { h with outcome := rfl }
  clearBelow := clearBelow
  handBack := handBack

end Speculation.Twin

namespace Machine.Twin

abbrev Steps {α : Type} (own : Prop) (x y : Action (Machine σ) α) : Prop :=
  Both (Machine.Twin own) x y

variable {m m' : Machine σ}

theorem iff_paired : m.Twin own m' ↔ m.Paired (Speculation.Twin own) (fun h h' => h' = h) m' :=
  ⟨fun h => ⟨h.frame, h.world.run, h.world.host⟩, fun h => ⟨h.frame, h.world.run, h.world.host⟩⟩

theorem steps_of_paired {α : Type} {x y : Action (Machine σ) α}
    (h : Paired.Steps (Speculation.Twin own) (fun h h' => h' = h) x y) : Steps own x y :=
  fun _ _ ht => (h (iff_paired.1 ht)).mono fun _ _ => iff_paired.2

end Machine.Twin

/-! Requests. They are the only place where the tables are read. -/

/-- The worlds are twins, tables included, for a frame of the level below. -/
def World.TwinBelow (w v : World σ) : Prop := w.descend.Twin True v.descend

namespace World.TwinBelow

variable {w v w' v' : World σ}

/-- What two frames ask for when they have cleared the level below. -/
theorem of_clearBelow {s t : Speculation} (h : w.Twin own v) (hw : w.run = s.clearBelow)
    (hv : v.run = t.clearBelow) : w.TwinBelow v := by
  have hl : w.run.level = s.level := by
    rw [hw]
    rfl
  have hl' : v.run.level = t.level := by
    rw [hv]
    rfl
  refine ⟨⟨h.run.overlay, h.run.accesses, h.run.outcome, fun _ => ?_, fun _ => ?_⟩, h.host⟩
  · show v.run.payloads (v.run.level + 1) = w.run.payloads (w.run.level + 1)
    rw [hl, hl', hw, hv, Speculation.payloads_clearBelow, Speculation.payloads_clearBelow,
      if_pos rfl, if_pos rfl]
  · show v.run.created? (v.run.level + 1) = w.run.created? (w.run.level + 1)
    rw [hl, hl', hw, hv, Speculation.created?_clearBelow, Speculation.created?_clearBelow,
      if_pos rfl, if_pos rfl]

/-- Where only entries beneath have changed, the frames at work see what they saw. -/
theorem twin (h : w'.TwinBelow v') (ht : w.Twin own v) (hw : w.run.Beneath w'.run)
    (hv : v.run.Beneath v'.run) : w'.Twin own v' := by
  refine ⟨⟨h.run.overlay, h.run.accesses, h.run.outcome, fun ho => ?_, fun ho => ?_⟩, h.host⟩
  · rw [hw.level, hv.level, hw.own, hv.own]
    exact ht.run.payloads ho
  · rw [hw.level, hv.level, hw.created (Nat.le_refl _), hv.created (Nat.le_refl _)]
    exact ht.run.created ho

end World.TwinBelow

/-- What twins have asked for is the same, and so is what they find of the answer. -/
theorem World.TwinBelow.paired {w v w' v' : World σ} (h : w'.TwinBelow v') (ht : w.Twin own v)
    (hw : w.run.Beneath w'.run) (hv : v.run.Beneath v'.run) :
    w'.PairedBelow (Speculation.Twin own) (fun h h' => h' = h) v' :=
  ⟨⟨(h.twin ht hw hv).run, h.host⟩, h.run.payloads trivial, h.run.created trivial⟩

end SpeculativeEvm
