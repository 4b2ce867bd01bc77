import SpeculativeEvm.Proofs.Nesting.Record

/-! How a run stands, from each moment of it to every later one. A preorder between outcomes that
each single change respects orders all the outcomes of a run. So no frame takes back what any
instruction has marked before: an abort, a failure, a self-destruct. -/

namespace SpeculativeEvm

open Nesting

def Moment.outcome (setup : Setup) (x : Moment) : Outcome := (x.machine setup).world.run.outcome

def Point.outcomes (setup : Setup) (p : Point) : List Outcome :=
  (p.course setup).map (Moment.outcome setup) ++ [(p.left setup).world.run.outcome]

section Related

variable {setup : Setup} {R : Outcome → Outcome → Prop}

/-- Between the first outcome and the last one, those of the moments are related step by step. -/
def Spans (setup : Setup) (R : Outcome → Outcome → Prop) : List Moment → Outcome → Outcome → Prop
  | [], o, o' => R o o'
  | x :: rest, o, o' => R o (x.outcome setup) ∧ Spans setup R rest (x.outcome setup) o'

section Step

variable (h : Respected setup fun s t => R s.outcome t.outcome) {p q : Point} {opcode : UInt8}

include h

theorem Point.related_after (hop : p.opcode? = some opcode) :
    R p.run.outcome (p.after setup).world.run.outcome := by
  rw [after_of_opcode hop]
  exact h.advance (h.host p.depth) p.inv opcode p.machine

theorem Point.related_left (he : p.entered? setup = some q) :
    R (q.left setup).world.run.outcome (p.after setup).world.run.outcome := by
  obtain ⟨opcode, hop, request, resolution, m, depth, next, w, hs, hd, hc, rfl⟩ :=
    entered?_eq_some he
  have hp : Passed setup _ (host setup (depth + 1) p.inv request m.world) := host_passed hc
  rw [← hd] at hp
  have ha := answered_keeps h.parts h.note (fun m => h.abort m.world.run) hop hs
  rw [Machine.Related, hp.sameStatus.outcome] at ha
  exact ha

end Step

variable [IsPreorder Outcome R] {l l' : List Moment} {o o' o'' : Outcome}

theorem Spans.of_related (ho : R o o') (h : Spans setup R l o' o'') : Spans setup R l o o'' := by
  induction l with
  | nil => exact trans_of R ho h
  | cons x rest ih => exact ⟨trans_of R ho h.1, h.2⟩

theorem Spans.append (h : Spans setup R l o o') (h' : Spans setup R l' o' o'') :
    Spans setup R (l ++ l') o o'' := by
  induction l generalizing o with
  | nil => exact .of_related h h'
  | cons x rest ih => exact ⟨h.1, ih h.2⟩

theorem Spans.pairwise (h : Spans setup R l o o') :
    (o :: (l.map (Moment.outcome setup) ++ [o'])).Pairwise R := by
  induction l generalizing o with
  | nil => simpa [Spans] using h
  | cons x rest ih =>
    have hr := ih h.2
    rw [List.map_cons, List.cons_append, List.pairwise_cons]
    refine ⟨fun y hy => ?_, hr⟩
    rcases List.mem_cons.1 hy with rfl | hy
    · exact h.1
    · exact trans_of R h.1 (List.rel_of_pairwise_cons hr hy)

variable (h : Respected setup fun s t => R s.outcome t.outcome) {p q : Point}

include h

theorem Point.related_entered (he : p.entered? setup = some q) :
    R p.run.outcome q.run.outcome := by
  obtain ⟨opcode, hop, request, resolution, m, depth, next, w, hs, hd, hc, rfl⟩ :=
    entered?_eq_some he
  have hm := h.start p.inv (Instruction.decode opcode) (p.noted opcode)
  have hw := h.child p.inv request m.world
  rw [Action.final_of_ok hs, Machine.Related, noted_run] at hm
  rw [Action.final_of_ok hc] at hw
  exact trans_of R hm hw

theorem Point.spans (p : Point) :
    Spans setup R (p.course setup) p.run.outcome (p.left setup).world.run.outcome := by
  induction p using Point.induct setup with
  | ended p hop =>
    rw [course_of_none hop, left_of_none hop]
    exact refl_of R p.run.outcome
  | turn p opcode hop ihe ihn =>
    have hbelow : Spans setup R ((p.entered? setup).elim [] (Point.course setup)) p.run.outcome
        (p.after setup).world.run.outcome := by
      rcases he : p.entered? setup with - | q
      · exact related_after h hop
      · rw [← List.append_nil ((some q).elim [] (Point.course setup))]
        exact .append (.of_related (related_entered h he) (ihe q he)) (related_left h he)
    have hrest : Spans setup R ((p.next? setup).elim [] (Point.course setup))
        (p.after setup).world.run.outcome (p.left setup).world.run.outcome := by
      rcases hn : p.next? setup with - | q
      · rw [left_of_not_next hop hn]
        exact refl_of R (p.after setup).world.run.outcome
      · rw [← machine_of_next hn, left_of_next hn]
        exact ihn q hn
    rw [course_of_some hop]
    exact ⟨refl_of R p.run.outcome, hbelow.append ⟨refl_of R _, hrest⟩⟩

/-- The outcomes of a run are related, the one at its start to all, and each to all later ones. -/
theorem Point.outcomes_pairwise (p : Point) : (p.run.outcome :: p.outcomes setup).Pairwise R :=
  (Point.spans h p).pairwise

end Related

structure Outcome.Lasts (o o' : Outcome) : Prop where
  aborted (h : o.aborted = true) : o'.aborted = true
  failed (h : o.succeeded = false) : o'.succeeded = false
  selfDestructed (h : o.selfDestructed = true) : o'.selfDestructed = true

def Outcome.Settled (o : Outcome) : Prop := o.aborted = true → o.succeeded = false

namespace Outcome

instance : IsPreorder Outcome Lasts where
  refl _ := ⟨id, id, id⟩
  trans _ _ _ h h' :=
    ⟨h'.aborted ∘ h.aborted, h'.failed ∘ h.failed, h'.selfDestructed ∘ h.selfDestructed⟩

instance : IsPreorder Outcome fun o o' => o.Settled → o'.Settled where
  refl _ h := h
  trans _ _ _ h h' := h' ∘ h

end Outcome

theorem Speculation.outcome_handBack (s : Speculation) (output : Bytes) :
    (s.handBack output).outcome = s.outcome := by
  obtain ⟨returned, he⟩ := s.handBack_eq output
  rw [he]

theorem lasts_respected (setup : Setup) :
    Respected setup fun s t => s.outcome.Lasts t.outcome where
  refl s := refl_of Outcome.Lasts s.outcome
  trans _ _ _ h h' := trans_of Outcome.Lasts h h'
  effect {inv s t i} he := by
    cases he with
    | invalid => exact ⟨id, fun _ => rfl, id⟩
    | selfDestruct => exact ⟨id, id, fun _ => rfl⟩
    | handBack _ output =>
      rw [s.outcome_handBack]
      exact refl_of Outcome.Lasts s.outcome
    | _ => exact refl_of Outcome.Lasts s.outcome
  abort s := ⟨fun _ => rfl, fun _ => rfl, id⟩
  setCreated s a := refl_of Outcome.Lasts s.outcome
  nested h := h

theorem settled_respected (setup : Setup) :
    Respected setup fun s t => s.outcome.Settled → t.outcome.Settled where
  refl _ h := h
  trans _ _ _ h h' := h' ∘ h
  effect {inv s t i} he h := by
    cases he with
    | invalid => exact fun _ => rfl
    | handBack _ output =>
      rw [s.outcome_handBack]
      exact h
    | _ => exact h
  abort _ _ _ := rfl
  setCreated _ _ h := h
  nested h := h

end SpeculativeEvm
