import SpeculativeEvm.Nesting
import SpeculativeEvm.Proofs.Keeps

/-! The frame that a request leads to, one level below the frame that asks: which frame that is, and
how its result becomes the host's answer. -/

namespace SpeculativeEvm

namespace Speculation

/-- The run with a frame of the level below at work. -/
def descend (s : Speculation) : Speculation := { s with level := s.level + 1 }

/-- The run with a frame of the level above at work. -/
def ascend (s : Speculation) : Speculation := { s with level := s.level - 1 }

end Speculation

namespace World

variable {σ : Type}

def descend (w : World σ) : World σ := { w with run := w.run.descend }

def ascend (w : World σ) : World σ := { w with run := w.run.ascend }

end World

namespace Nesting

def freshWorld (journal : Journal) : World Nonces := ⟨{}, ∅, journal⟩

/-- The machine on which a nested frame starts when the world around its caller is `w`. -/
def entry (setup : Setup) (w : World Nonces) : Machine Nonces :=
  ⟨.fresh setup.settings.maxMemory, w.descend⟩

variable {setup : Setup} {host : Host Nonces} {inv : Invocation} {w : World Nonces}
  {m : Machine Nonces}

theorem enter_apply (setup : Setup) (host : Host Nonces) (inv : Invocation) (w : World Nonces) :
    enter setup host inv w = match Interpreter.run setup host inv (entry setup w) with
      | .ok _ m => .ok true m.world.ascend
      | .error e m =>
        if e.isFatal then .error e m.world.ascend
        else .ok false { m.world.ascend with
          journal := m.world.journal.note
            (.childFailed inv.address (m.world.ascend.run.level + 1) e) } := by
  obtain ⟨run, nonces, journal⟩ := w
  rcases h : Interpreter.run setup host inv (entry setup ⟨run, nonces, journal⟩) with
    ⟨output, ⟨frame, run', nonces', journal'⟩⟩ | ⟨e, ⟨frame, run', nonces', journal'⟩⟩
  · simp only [entry, World.descend, Speculation.descend] at h
    simp only [enter, h]
    rfl
  · simp only [entry, World.descend, Speculation.descend] at h
    simp only [enter, h]
    split
    · rfl
    · exact Action.bind_of_ok (World.note_apply _ _)

theorem run_final_enter :
    ((enter setup host inv).final w).run =
      ((Interpreter.run setup host inv).final (entry setup w)).world.run.ascend := by
  rw [Action.final, enter_apply, Action.final]
  rcases Interpreter.run setup host inv (entry setup w) with ⟨output, m⟩ | ⟨e, m⟩
  · rfl
  · by_cases h : e.isFatal
    · simp only [if_pos h]
      rfl
    · simp only [if_neg h]
      rfl

/-- The frame of a request is always known; to make it up uses a nonce at most. -/
theorem child_ok (setup : Setup) (inv : Invocation) (request : Request) (w : World Nonces) :
    ∃ next nonces, child setup inv request w = .ok next ⟨w.run, nonces, w.journal⟩ := by
  obtain ⟨run, nonces, journal⟩ := w
  cases request with
  | create value init =>
    rw [child, Action.bind_apply]
    exact ⟨_, _, rfl⟩
  | _ => exact ⟨_, nonces, rfl⟩

theorem run_of_child {request : Request} {next : Invocation} {w w' : World Nonces}
    (h : child setup inv request w = .ok next w') : w'.run = w.run := by
  obtain ⟨next', nonces, hc⟩ := child_ok setup inv request w
  cases h.symm.trans hc
  rfl

theorem refuse_apply (w : World Nonces) : refuse w =
    .ok false { w with journal := w.journal.note (.depthLimit w.run.level) } :=
  Action.bind_of_ok (World.note_apply w _)

theorem serve_apply {descend : Invocation → Action (World Nonces) Bool} {request : Request}
    {next : Invocation} {w' : World Nonces} (h : child setup inv request w = .ok next w') :
    serve setup descend inv request w = match descend next w' with
      | .ok completed v => .ok () (if completed && request.isCreation then
          { v with run := v.run.setCreated (v.run.level + 1) next.address } else v)
      | .error e v => .error e v := by
  unfold serve
  rw [Action.bind_of_ok h, Action.bind_apply]
  rcases descend next w' with ⟨completed, v⟩ | ⟨e, v⟩
  · by_cases hc : (completed && request.isCreation) = true
    · simp only [if_pos hc]
      rfl
    · simp only [if_neg hc]
      rfl
  · rfl

theorem serve_keeps {R : World Nonces → World Nonces → Prop} [IsPreorder (World Nonces) R]
    {descend : Invocation → Action (World Nonces) Bool} {request : Request}
    (hc : (child setup inv request).Keeps R) (hd : ∀ next, (descend next).Keeps R)
    (hs : ∀ w a, R w { w with run := w.run.setCreated (w.run.level + 1) a }) :
    (serve setup descend inv request).Keeps R := by
  refine .bind hc fun next => .bind (hd next) fun completed => ?_
  split
  · exact fun w => hs w next.address
  · exact .pure _

end Nesting

end SpeculativeEvm
