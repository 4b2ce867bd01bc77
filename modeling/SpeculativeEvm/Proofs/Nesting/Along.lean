import SpeculativeEvm.Proofs.Nesting.Record

/-! Preorders that look at the record of a run only. Nothing but an instruction by itself changes
the record, so such a preorder that instructions keep, at the points where some invariant of the
frames holds, relates each point to all points that come later and to the ends of its frame and of
the frames around it. -/

namespace SpeculativeEvm

open Nesting

namespace Point

/-- Once `Q` holds at a point it holds at the points after it, and where it holds an instruction by
itself keeps `R`, a preorder that looks at nothing but the record. -/
structure Along (setup : Setup) (Q : Point → Prop) (R : World Nonces → World Nonces → Prop) : Prop
    extends IsPreorder (World Nonces) R where
  same {w w' : World Nonces} (h : w.SameRecord w') : R w w'
  step {p q : Point} (hp : Q p) (h : Step setup p q) : Q q
  begun {p : Point} {opcode : UInt8} (hp : Q p) (hop : p.opcode? = some opcode) :
    R p.machine.world (p.begun setup)

namespace Along

variable {setup : Setup} {Q : Point → Prop} {R : World Nonces → World Nonces → Prop} {p q : Point}
  {opcode : UInt8} (h : Along setup Q R)

include h

/-- What holds of the frame that the instruction asks for holds of the instruction. -/
theorem after_of_below (hop : p.opcode? = some opcode)
    (hb : ∀ q, p.entered? setup = some q → R q.machine.world (q.left setup).world) :
    R (p.begun setup) (p.after setup).world := by
  have := h.toIsPreorder
  rcases he : p.entered? setup with - | q
  · exact h.same (after_of_not_entered hop he)
  · have hleft := trans_of R (hb q he) (h.same (after_of_entered he))
    exact trans_of R (h.same (begun_of_entered he)) hleft

/-- From a point to the end of its frame. -/
theorem left (hp : Q p) : R p.machine.world (p.left setup).world := by
  have := h.toIsPreorder
  induction p using induct setup with
  | ended p hop =>
    rw [left_of_none hop]
    exact refl_of R _
  | turn p opcode hop ihe ihn =>
    have hbelow := h.after_of_below hop fun q hq => ihe q hq (h.step hp (step_iff.2 (.inr hq)))
    have hafter := trans_of R (h.begun hp hop) hbelow
    rcases hn : p.next? setup with - | q
    · rwa [left_of_not_next hop hn]
    · have hq := ihn q hn (h.step hp (step_iff.2 (.inl hn)))
      rw [machine_of_next hn] at hq
      rw [left_of_next hn]
      exact trans_of R hafter hq

theorem begun_after (hp : Q p) (hop : p.opcode? = some opcode) :
    R (p.begun setup) (p.after setup).world :=
  h.after_of_below hop fun _ hq => h.left (h.step hp (step_iff.2 (.inr hq)))

theorem after_left (hp : Q p) (hop : p.opcode? = some opcode) :
    R (p.after setup).world (p.left setup).world := by
  have := h.toIsPreorder
  rcases hn : p.next? setup with - | q
  · rw [left_of_not_next hop hn]
    exact refl_of R _
  · rw [← machine_of_next hn, left_of_next hn]
    exact h.left (h.step hp (step_iff.2 (.inl hn)))

theorem of_step (hp : Q p) (hs : Step setup p q) : R p.machine.world q.machine.world := by
  have := h.toIsPreorder
  rcases step_iff.1 hs with hn | he
  · obtain ⟨opcode, hop, -⟩ := next?_eq_some hn
    rw [machine_of_next hn]
    exact trans_of R (h.begun hp hop) (h.begun_after hp hop)
  · obtain ⟨opcode, hop, -⟩ := entered?_eq_some he
    exact trans_of R (h.begun hp hop) (h.same (begun_of_entered he))

/-- From a point to a later one. -/
theorem of_reaches (hp : Q p) (hr : Reaches setup p q) :
    Q q ∧ R p.machine.world q.machine.world := by
  have := h.toIsPreorder
  induction hr with
  | refl => exact ⟨hp, refl_of R _⟩
  | tail _ hs ih => exact ⟨h.step ih.1 hs, trans_of R ih.2 (h.of_step ih.1 hs)⟩

/-- From the end of a frame to the end of a frame around it. -/
theorem left_of_reaches (hp : Q p) (hr : Reaches setup p q) :
    R (q.left setup).world (p.left setup).world := by
  have := h.toIsPreorder
  induction hr using Relation.ReflTransGen.head_induction_on with
  | refl => exact refl_of R _
  | head hs _ ih =>
    have hleft := ih (h.step hp hs)
    rcases step_iff.1 hs with hn | he
    · rwa [left_of_next hn]
    · obtain ⟨opcode, hop, -⟩ := entered?_eq_some he
      have hafter := trans_of R hleft (h.same (after_of_entered he))
      exact trans_of R hafter (h.after_left hp hop)

/-- From what an instruction has done by itself to the end of a frame around it. -/
theorem begun_left (hp : Q p) (hr : Reaches setup p q) (hop : q.opcode? = some opcode) :
    R (q.begun setup) (p.left setup).world := by
  have := h.toIsPreorder
  have hq := (h.of_reaches hp hr).1
  have hleft := trans_of R (h.begun_after hq hop) (h.after_left hq hop)
  exact trans_of R hleft (h.left_of_reaches hp hr)

end Along

end Point

end SpeculativeEvm
