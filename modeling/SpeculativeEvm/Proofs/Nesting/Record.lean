import SpeculativeEvm.Proofs.Nesting.Course
import SpeculativeEvm.Proofs.Nesting.Resolution

/-! What a run records as it goes: its overlay, its accesses and the nonces used up. Nothing but an
instruction, as far as it comes by itself, changes any of these: handing over to a nested frame,
coming back from it and resolving the request leave them as they are. So whatever is read off them
is, at each moment of a run, what the instructions started by then add up to. -/

namespace SpeculativeEvm

open Nesting Execute

variable {σ : Type}

structure World.SameRecord (w w' : World σ) : Prop where
  overlay : w'.run.overlay = w.run.overlay
  accesses : w'.run.accesses = w.run.accesses
  host : w'.host = w.host

def Machine.SameRecord (m m' : Machine σ) : Prop := m.world.SameRecord m'.world

instance : IsPreorder (World σ) World.SameRecord where
  refl _ := ⟨rfl, rfl, rfl⟩
  trans _ _ _ h h' :=
    ⟨h'.overlay.trans h.overlay, h'.accesses.trans h.accesses, h'.host.trans h.host⟩

namespace Machine.SameRecord

instance : IsPreorder (Machine σ) SameRecord where
  refl m := refl_of World.SameRecord m.world
  trans _ _ _ h h' := trans_of World.SameRecord h h'

theorem parts : Parts (SameRecord (σ := σ)) := by
  refine .of_localChange fun {m m'} h => ?_
  rw [SameRecord, h.world]
  exact refl_of World.SameRecord m.world

theorem note (event : Machine σ → Event) : (note event).Keeps SameRecord := by
  intro m
  rw [final_note]
  exact ⟨rfl, rfl, rfl⟩

theorem abort : (onRun (·.abort) : Action (Machine σ) Unit).Keeps SameRecord :=
  fun _ => ⟨rfl, rfl, rfl⟩

end Machine.SameRecord

structure World.SameStatus (w w' : World σ) : Prop extends SameRecord w w' where
  outcome : w'.run.outcome = w.run.outcome

namespace World.SameStatus

variable {w w' w'' : World σ}

theorem trans (h : w.SameStatus w') (h' : w'.SameStatus w'') : w.SameStatus w'' :=
  ⟨trans_of SameRecord h.toSameRecord h'.toSameRecord, h'.outcome.trans h.outcome⟩

theorem symm (h : w.SameStatus w') : w'.SameStatus w :=
  ⟨⟨h.overlay.symm, h.accesses.symm, h.host.symm⟩, h.outcome.symm⟩

end World.SameStatus

/-- How the result of a nested frame, from its first point on, becomes the host's answer: a fault
that is not fatal is no fault of the host. -/
inductive Point.Passed (setup : Setup) (p : Point) :
    EStateM.Result Fault (World Nonces) Unit → Prop
  | ok {w : World Nonces} (hr : ∀ e m, p.result setup = .error e m → e.isFatal = false)
    (hw : (p.left setup).world.SameStatus w) : Passed setup p (.ok () w)
  | fatal {e : Fault} {m : Machine Nonces} {w : World Nonces} (hr : p.result setup = .error e m)
    (he : e.isFatal = true) (hw : (p.left setup).world.SameStatus w) : Passed setup p (.error e w)

namespace Point

variable {setup : Setup} {p q : Point} {opcode : UInt8}

/-- The world when the instruction has come as far as it does by itself, the nonce of a creation
used up. -/
def begun (setup : Setup) (p : Point) : World Nonces :=
  match p.opcode? with
  | none => p.machine.world
  | some opcode =>
    match Execute.start setup p.inv (Instruction.decode opcode) (p.noted opcode) with
    | .ok (.ask request _) m => (child setup p.inv request).final m.world
    | .ok (.done _) m => m.world
    | .error _ m => m.world

/-- What the instruction asks the host for, and the world in which it asks. -/
def asked? (setup : Setup) (p : Point) : Option (Request × World Nonces) :=
  p.opcode?.bind fun opcode =>
    match Execute.start setup p.inv (Instruction.decode opcode) (p.noted opcode) with
    | .ok (.ask request _) m => some (request, m.world)
    | _ => none

theorem begun_run (hop : p.opcode? = some opcode) : (p.begun setup).run =
    ((Execute.start setup p.inv (Instruction.decode opcode)).final (p.noted opcode)).world.run := by
  rcases hs : Execute.start setup p.inv (Instruction.decode opcode) (p.noted opcode) with
    ⟨progress, m⟩ | ⟨e, m⟩
  · rw [Action.final_of_ok hs]
    cases progress with
    | done control => simp only [begun, hop, hs]
    | ask request resolution =>
      obtain ⟨next, nonces, hc⟩ := child_ok setup p.inv request m.world
      simp only [begun, hop, hs]
      rw [Action.final_of_ok hc]
  · rw [Action.final_of_error hs]
    simp only [begun, hop, hs]

/-- After the instruction itself only the counter moves. -/
theorem after_keeps {R : Machine Nonces → Machine Nonces → Prop} (h : Machine.Parts R)
    (hn : ∀ event, (Machine.note event).Keeps R) (setup : Setup) (hop : p.opcode? = some opcode) :
    R ((execute setup (host setup p.depth) p.inv (Instruction.decode opcode)).final
      (p.noted opcode)) (p.after setup) := by
  have := h.toIsPreorder
  have ha : p.after setup =
      (execute setup (host setup p.depth) p.inv (Instruction.decode opcode) >>=
        Interpreter.moveOn p.inv opcode).final (p.noted opcode) := by
    rw [after_of_opcode hop, Action.final, advance_apply, Action.final]
  rw [ha]
  rcases Action.final_bind_cases
    (execute setup (host setup p.depth) p.inv (Instruction.decode opcode))
    (Interpreter.moveOn p.inv opcode) (p.noted opcode) with ⟨control, -, he⟩ | ⟨-, he⟩
  · rw [he]
    exact Interpreter.moveOn_keeps h hn p.inv opcode control _
  · rw [he]
    exact refl_of R _

/-- After the host's answer there is the request to resolve, and the counter to move. -/
theorem answered_keeps {R : Machine Nonces → Machine Nonces → Prop} (h : Machine.Parts R)
    (hn : ∀ event, (Machine.note event).Keeps R) (ha : (Machine.onRun (·.abort)).Keeps R)
    {request : Request} {resolution : Resolution} {m : Machine Nonces}
    (hop : p.opcode? = some opcode)
    (hs : Execute.start setup p.inv (Instruction.decode opcode) (p.noted opcode) =
      .ok (.ask request resolution) m) :
    R ⟨m.frame, (host setup p.depth p.inv request).final m.world⟩ (p.after setup) := by
  have := h.toIsPreorder
  refine trans_of R ?_ (after_keeps h hn setup hop)
  rw [Action.final, Action.final, execute_of_ask hs]
  rcases host setup p.depth p.inv request m.world with ⟨u, w⟩ | ⟨e, w⟩
  · exact resolve_keeps h.data hn ha resolution ⟨m.frame, w⟩
  · exact refl_of R (Machine.mk m.frame w)

theorem left_eq (setup : Setup) (p : Point) :
    p.left setup = match p.result setup with | .ok _ m => m | .error _ m => m := by
  rw [left, Action.final, result]
  cases Interpreter.runFor setup (host setup p.depth) p.inv p.budget p.machine <;> rfl

theorem host_passed {inv next : Invocation} {request : Request} {w w' : World Nonces} {depth : Nat}
    (hc : child setup inv request w = .ok next w') :
    Passed setup ⟨depth, setup.settings.maxSteps, next, entry setup w'⟩
      (host setup (depth + 1) inv request w) := by
  rw [host, serve_apply hc, enter_apply, Interpreter.run_apply]
  generalize hp : Point.mk depth setup.settings.maxSteps next (entry setup w') = p
  have hr : p.result setup = Interpreter.runFor setup (host setup depth) next
      setup.settings.maxSteps ⟨{ (entry setup w').frame with pc := 0 }, (entry setup w').world⟩ :=
    hp ▸ rfl
  have hl := p.left_eq setup
  rw [← hr]
  rcases hres : p.result setup with ⟨u, m⟩ | ⟨e, m⟩
  · rw [hres] at hl
    have hfatal (e : Fault) (m' : Machine Nonces) (he : p.result setup = .error e m') :
        e.isFatal = false := by
      rw [hres] at he
      cases he
    cases request.isCreation with
    | true => exact .ok hfatal ⟨⟨hl ▸ rfl, hl ▸ rfl, hl ▸ rfl⟩, hl ▸ rfl⟩
    | false => exact .ok hfatal ⟨⟨hl ▸ rfl, hl ▸ rfl, hl ▸ rfl⟩, hl ▸ rfl⟩
  · rw [hres] at hl
    cases he : e.isFatal with
    | true =>
      simp only [he, if_true]
      exact .fatal hres he ⟨⟨hl ▸ rfl, hl ▸ rfl, hl ▸ rfl⟩, hl ▸ rfl⟩
    | false =>
      simp only [he]
      refine .ok (fun e' m' h => ?_) ⟨⟨hl ▸ rfl, hl ▸ rfl, hl ▸ rfl⟩, hl ▸ rfl⟩
      rw [hres] at h
      cases h
      exact he

theorem Passed.sameStatus {x : Action (World Nonces) Unit} {w : World Nonces}
    (h : Passed setup p (x w)) : (p.left setup).world.SameStatus (x.final w) := by
  rw [Action.final]
  generalize x w = r at h
  cases h with
  | ok _ hw | fatal _ _ hw => exact hw

/-- The nested frame starts from what the instruction has recorded. -/
theorem begun_of_entered (h : p.entered? setup = some q) :
    (p.begun setup).SameRecord q.machine.world := by
  obtain ⟨opcode, hop, request, resolution, m, depth, next, w, hs, -, hc, rfl⟩ :=
    entered?_eq_some h
  simp only [begun, hop, hs]
  rw [Action.final_of_ok hc]
  exact ⟨rfl, rfl, rfl⟩

theorem after_of_entered (h : p.entered? setup = some q) :
    (q.left setup).world.SameRecord (p.after setup).world := by
  obtain ⟨opcode, hop, request, resolution, m, depth, next, w, hs, hd, hc, rfl⟩ :=
    entered?_eq_some h
  have hp : Passed setup _ (host setup (depth + 1) p.inv request m.world) := host_passed hc
  rw [← hd] at hp
  have ha := answered_keeps Machine.SameRecord.parts Machine.SameRecord.note
    Machine.SameRecord.abort hop hs
  exact trans_of World.SameRecord hp.sameStatus.toSameRecord ha

theorem after_of_not_entered (hop : p.opcode? = some opcode) (h : p.entered? setup = none) :
    (p.begun setup).SameRecord (p.after setup).world := by
  have ha := after_keeps Machine.SameRecord.parts Machine.SameRecord.note setup hop
  rw [entered?, hop, Option.bind_some] at h
  rcases hs : Execute.start setup p.inv (Instruction.decode opcode) (p.noted opcode) with
    ⟨progress, m⟩ | ⟨e, m⟩
  · rcases progress with control | ⟨request, resolution⟩
    · simp only [begun, hop, hs]
      rwa [execute, Action.final_bind_of_ok hs] at ha
    · obtain ⟨next, nonces, hc⟩ := child_ok setup p.inv request m.world
      have hd : p.depth = 0 := by
        rcases hd : p.depth with - | depth
        · rfl
        · simp only [hs, hd, hc, reduceCtorEq] at h
      simp only [begun, hop, hs]
      refine trans_of World.SameRecord ?_ (answered_keeps Machine.SameRecord.parts
        Machine.SameRecord.note Machine.SameRecord.abort hop hs)
      rw [Action.final_of_ok hc, hd, Action.final, host, serve_apply hc, refuse_apply]
      exact ⟨rfl, rfl, rfl⟩
  · simp only [begun, hop, hs]
    rwa [execute, Action.final_bind_of_error hs] at ha

end Point

/-! What is read off the record, retold from the course alone. -/

/-- One moment of the course in the retelling: `turn` is made for each instruction that starts. -/
def Moment.retell {γ : Type} (turn : γ → Point → γ) (v : γ) : Moment → γ
  | starts p => turn v p
  | ends _ => v

/-- What `view` reads off the record changes as `turn` says with each instruction by itself. -/
structure Retold {γ : Type} (setup : Setup) (view : World Nonces → γ) (turn : γ → Point → γ) :
    Prop where
  same {w w' : World Nonces} (h : w.SameRecord w') : view w' = view w
  turn {p : Point} {opcode : UInt8} (h : p.opcode? = some opcode) :
    view (p.begun setup) = turn (view p.machine.world) p

namespace Retold

variable {γ : Type} {setup : Setup} {view : World Nonces → γ} {turn : γ → Point → γ}

/-- At each of the moments, and after them, the view is what the retelling has come to. -/
def Tells (setup : Setup) (view : World Nonces → γ) (turn : γ → Point → γ) :
    List Moment → γ → γ → Prop
  | [], v, v' => v' = v
  | x :: rest, v, v' =>
    view (x.machine setup).world = v ∧ Tells setup view turn rest (x.retell turn v) v'

theorem Tells.append {l l' : List Moment} {v v' v'' : γ} (h : Tells setup view turn l v v')
    (h' : Tells setup view turn l' v' v'') : Tells setup view turn (l ++ l') v v'' := by
  induction l generalizing v with
  | nil =>
    obtain rfl : v' = v := h
    exact h'
  | cons x rest ih => exact ⟨h.1, ih h.2⟩

theorem Tells.eq_foldl {l : List Moment} {v v' : γ} (h : Tells setup view turn l v v') :
    v' = l.foldl (Moment.retell turn) v := by
  induction l generalizing v with
  | nil => exact h
  | cons x rest ih => exact ih h.2

theorem Tells.at {pre post : List Moment} {x : Moment} {v v' : γ}
    (h : Tells setup view turn (pre ++ x :: post) v v') :
    view (x.machine setup).world = pre.foldl (Moment.retell turn) v := by
  induction pre generalizing v with
  | nil => exact h.1
  | cons y pre ih => exact ih h.2

theorem tells (h : Retold setup view turn) (p : Point) :
    Tells setup view turn (p.course setup) (view p.machine.world) (view (p.left setup).world) := by
  induction p using Point.induct setup with
  | ended p hop =>
    rw [Point.course_of_none hop, Point.left_of_none hop]
    rfl
  | turn p opcode hop ihe ihn =>
    have hbelow : Tells setup view turn ((p.entered? setup).elim [] (Point.course setup))
        (turn (view p.machine.world) p) (view (p.after setup).world) := by
      rw [← h.turn hop]
      cases he : p.entered? setup with
      | none => exact h.same (Point.after_of_not_entered hop he)
      | some q =>
        rw [← h.same (Point.begun_of_entered he), h.same (Point.after_of_entered he)]
        exact ihe q he
    have hrest : Tells setup view turn ((p.next? setup).elim [] (Point.course setup))
        (view (p.after setup).world) (view (p.left setup).world) := by
      cases hn : p.next? setup with
      | none =>
        rw [Point.left_of_not_next hop hn]
        rfl
      | some q =>
        rw [← Point.machine_of_next hn, Point.left_of_next hn]
        exact ihn q hn
    rw [Point.course_of_some hop]
    exact ⟨rfl, hbelow.append ⟨rfl, hrest⟩⟩

end Retold

end SpeculativeEvm
