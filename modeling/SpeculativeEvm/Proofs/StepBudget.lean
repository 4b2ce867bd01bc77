import SpeculativeEvm.Proofs.Execute.Raise
import SpeculativeEvm.Script

/-! Frames under different step budgets. No instruction looks at the budget, so a frame that comes
to an end within one budget comes to the same end within every larger one, and a frame that does not
has executed exactly as many instructions as the budget allows, each of which let it go on. -/

namespace SpeculativeEvm

open Machine

variable {σ : Type}

def Setup.withSteps (setup : Setup) (steps : Nat) : Setup :=
  { setup with settings := { setup.settings with maxSteps := steps } }

/-- From a state in `I` the action comes to a state in `I` and does not end with the step limit's
fault. -/
def Action.Unlimited {α : Type} (I : σ → Prop) (x : Action σ α) : Prop :=
  ∀ s, I s → I (x.final s) ∧ ∀ n t, x s ≠ .error (.stepLimitExceeded n) t

namespace Action.Unlimited

variable {α β : Type} {I : σ → Prop}

theorem of_keeps {x : Action σ α} (hk : x.Keeps fun s t => I s → I t)
    (hr : x.Raises fun e => ∀ n, e ≠ .stepLimitExceeded n) : x.Unlimited I :=
  fun s hs => ⟨hk s hs, fun n t ht => hr s _ t ht n rfl⟩

protected theorem bind {x : Action σ α} {f : α → Action σ β} (hx : x.Unlimited I)
    (hf : ∀ a, (f a).Unlimited I) : (x >>= f).Unlimited I := by
  intro s hs
  obtain ⟨hi, hn⟩ := hx s hs
  rcases hr : x s with ⟨a, t⟩ | ⟨e, t⟩
  · rw [final_of_ok hr] at hi
    rw [final_bind_of_ok hr, bind_of_ok hr]
    exact hf a t hi
  · rw [final_of_error hr] at hi
    rw [final_bind_of_error hr, bind_of_error hr]
    refine ⟨hi, fun n t' ht => hn n t ?_⟩
    cases ht
    exact hr

end Action.Unlimited

structure Host.NeverLimits (host : Host σ) (I : σ → Prop) : Prop where
  stays (inv : Invocation) (request : Request) {w : World σ} (h : I w.host) :
    I ((host inv request).final w).host
  fault {inv : Invocation} {request : Request} {w w' : World σ} {e : Fault} (h : I w.host)
    (he : host inv request w = .error e w') (n : Nat) : e ≠ .stepLimitExceeded n

/-- A player whose script does not have the step limit's fault never comes up with it. -/
theorem Script.host_neverLimits :
    host.NeverLimits fun p => ∀ e ∈ p.entries, ∀ n, e.fault ≠ some (.stepLimitExceeded n) := by
  have hentry (p : Player) (h : ∀ e ∈ p.entries, ∀ n, e.fault ≠ some (.stepLimitExceeded n))
      (n : Nat) : p.entry.fault ≠ some (.stepLimitExceeded n) := by
    unfold Player.entry
    cases hi : p.entries[min p.received.size (p.entries.size - 1)]? with
    | none => simp
    | some e => exact h e (Array.mem_of_getElem? hi) n
  constructor
  · rintro inv request ⟨run, player, journal⟩ h
    unfold Action.final host
    dsimp only
    cases player.entry.fault <;> exact h
  · rintro inv request ⟨run, player, journal⟩ w' e h he n rfl
    have hp := hentry player h n
    unfold host at he
    cases hf : player.entry.fault with
    | none =>
      simp only [hf] at he
      cases he
    | some fault =>
      simp only [hf] at he
      cases he
      exact hp hf

namespace Interpreter

variable (setup : Setup) (host : Host σ) (inv : Invocation)

def stepNoted (opcode : UInt8) (m : Machine σ) : Machine σ :=
  (note fun m => .step m.frame.pc opcode m.frame.stack.depth).final m

/-- The instruction at the counter neither faults nor halts nor leaves the run aborted, and the
frame goes on with the second machine. -/
inductive GoesOn (m : Machine σ) : Machine σ → Prop
  | next {opcode : UInt8} {t : Machine σ} (hc : inv.code.bytes[m.frame.pc]? = some opcode)
    (hx : execute setup host inv (Instruction.decode opcode) (stepNoted opcode m) = .ok .next t)
    (ha : t.world.run.outcome.aborted = false) :
    GoesOn m ⟨{ t.frame with pc := t.frame.pc + 1 }, t.world⟩
  | jump {opcode : UInt8} {dest : Nat} {t : Machine σ}
    (hc : inv.code.bytes[m.frame.pc]? = some opcode)
    (hx : execute setup host inv (Instruction.decode opcode) (stepNoted opcode m) =
      .ok (.jump dest) t)
    (ha : t.world.run.outcome.aborted = false) : GoesOn m ⟨{ t.frame with pc := dest }, t.world⟩

inductive Executes : Nat → Machine σ → Machine σ → Prop
  | zero (m : Machine σ) : Executes 0 m m
  | succ {n : Nat} {m m' t : Machine σ} (h : GoesOn setup host inv m m') (hr : Executes n m' t) :
    Executes (n + 1) m t

variable {setup host inv} {opcode : UInt8} {m m' t : Machine σ}

theorem advance_apply (setup : Setup) (host : Host σ) (inv : Invocation) (opcode : UInt8)
    (m : Machine σ) : advance setup host inv opcode m =
      (execute setup host inv (Instruction.decode opcode) >>= moveOn inv opcode)
        (stepNoted opcode m) := by
  have hn := note_apply m fun m => .step m.frame.pc opcode m.frame.stack.depth
  rw [advance_eq, Action.bind_of_ok hn, stepNoted, Action.final_of_ok hn]

theorem goesOn_of_advance (hc : inv.code.bytes[m.frame.pc]? = some opcode)
    (h : advance setup host inv opcode m = .ok true m') : GoesOn setup host inv m m' := by
  rw [advance_apply] at h
  obtain ⟨control, t, hx, hmove⟩ := Action.of_bind_ok h
  unfold moveOn at hmove
  rw [readRun_bind] at hmove
  cases ha : t.world.run.outcome.aborted with
  | true =>
    rw [ha, if_pos rfl, note_bind] at hmove
    cases hmove
  | false =>
    rw [ha] at hmove
    cases control with
    | next =>
      cases hmove
      exact .next hc hx ha
    | jump dest =>
      cases hmove
      exact .jump hc hx ha
    | halt => cases hmove

/-! No instruction looks at the budget. -/

theorem execute_withSteps (setup : Setup) (steps : Nat) (host : Host σ) (inv : Invocation)
    (i : Instruction) :
    execute (setup.withSteps steps) host inv i = execute setup host inv i := by
  have hs : (Execute.start (setup.withSteps steps) inv i : Action (Machine σ) Progress) =
      Execute.start setup inv i := by
    cases i <;> rfl
  unfold execute
  rw [hs]

theorem advance_withSteps (setup : Setup) (steps : Nat) (host : Host σ) (inv : Invocation)
    (opcode : UInt8) :
    advance (setup.withSteps steps) host inv opcode = advance setup host inv opcode := by
  rw [advance_eq, advance_eq, execute_withSteps]

variable {I : σ → Prop}

/-- Only the budget makes a frame end with the step limit's fault. -/
theorem advance_unlimited (setup : Setup) (inv : Invocation) (hh : host.NeverLimits I)
    (opcode : UInt8) :
    (advance setup host inv opcode).Unlimited fun m => I m.world.host := by
  let R (m m' : Machine σ) : Prop := I m.world.host → I m'.world.host
  have : IsPreorder (Machine σ) R :=
    { refl := fun _ h => h, trans := fun _ _ _ h h' => h' ∘ h }
  have hparts : Parts R := .of_localChange fun h hi => by rwa [h.world]
  have hnote (event : Machine σ → Event) : (note event).Keeps R := by
    intro m hi
    rwa [final_note]
  have hrun (f : Speculation → Speculation) : (onRun f).Keeps R := fun _ hi => hi
  have hP : Fault.OfOperands fun e => ∀ n, e ≠ .stepLimitExceeded n :=
    ⟨⟨nofun, nofun⟩, nofun, nofun⟩
  rw [advance_eq]
  refine .bind (.of_keeps (hnote _) (note_raises _)) fun _ =>
    .bind (.bind (.of_keeps ?_ ?_) fun progress => ?_) fun control => .of_keeps ?_ ?_
  · exact Execute.start_keeps hparts setup inv (fun _ => hrun) (fun _ => hnote) fun _ _ _ hi => hi
  · refine Execute.start_raises hP setup inv (fun q frame e _ hq n hn => ?_) fun _ _ => nofun
    subst hn
    cases Execute.of_quantityOf hq
  · cases progress with
    | done control => exact .of_keeps (.pure _) (.pure _)
    | ask request resolution =>
      refine .bind (fun m hi => ⟨?_, fun n t ht => ?_⟩) fun _ => .of_keeps
        (Execute.resolve_keeps hparts.data hnote (hrun _) resolution)
        (Execute.resolve_raises hP resolution)
      · rw [final_onWorld]
        exact hh.stays inv request hi
      · rw [onWorld_apply] at ht
        cases hr : host inv request m.world with
        | ok a w =>
          rw [hr] at ht
          cases ht
        | error e w =>
          rw [hr] at ht
          cases ht
          exact hh.fault hi hr n rfl
  · exact moveOn_keeps hparts hnote inv opcode control
  · refine .of_ok fun m => ?_
    obtain ⟨goesOn, t, hmove, -⟩ := moveOn_cases inv opcode control m
    exact ⟨goesOn, t, hmove⟩

/-- Within the budget the frame does not come to an end. -/
def UsedUp (setup : Setup) (host : Host σ) (inv : Invocation) (budget : Nat) (m : Machine σ) :
    Prop :=
  ∃ t, Executes setup host inv budget m t ∧ t.frame.pc < inv.code.size ∧
    ∀ steps, runFor (setup.withSteps steps) host inv budget m =
      .error (.stepLimitExceeded steps) t

structure Suffices (setup : Setup) (host : Host σ) (inv : Invocation) (budget : Nat)
    (m : Machine σ) : Prop where
  ends (n : Nat) (t : Machine σ) :
    runFor setup host inv budget m ≠ .error (.stepLimitExceeded n) t
  more (steps extra : Nat) : runFor (setup.withSteps steps) host inv (budget + extra) m =
    runFor setup host inv budget m

/-- A frame at the end of its code is at its end with any budget. -/
theorem suffices_of_ended (setup : Setup) (host : Host σ) (budget : Nat)
    (hc : inv.code.bytes[m.frame.pc]? = none) : Suffices setup host inv budget m := by
  constructor
  · intro n t ht
    rw [runFor_of_ended setup host budget hc] at ht
    cases ht
  · intro steps extra
    rw [runFor_of_ended _ host _ hc, runFor_of_ended setup host budget hc]

/-- An instruction that the frame does not go on after ends it. -/
theorem suffices_of_ending (hh : host.NeverLimits I) (hm : I m.world.host) (budget : Nat)
    (hc : inv.code.bytes[m.frame.pc]? = some opcode)
    (ha : ∀ m', advance setup host inv opcode m ≠ .ok true m') :
    Suffices setup host inv (budget + 1) m := by
  constructor
  · intro n t ht
    rw [runFor_of_opcode setup host budget hc, Action.bind_apply] at ht
    cases hx : advance setup host inv opcode m with
    | ok goesOn m' =>
      cases goesOn with
      | true => exact ha m' hx
      | false =>
        rw [hx] at ht
        cases ht
    | error e m' =>
      rw [hx] at ht
      cases ht
      exact (advance_unlimited setup inv hh opcode m hm).2 n t hx
  · intro steps extra
    rw [show budget + 1 + extra = budget + extra + 1 by omega, runFor_of_opcode _ host _ hc,
      runFor_of_opcode setup host budget hc, advance_withSteps, Action.bind_apply,
      Action.bind_apply]
    cases hx : advance setup host inv opcode m with
    | ok goesOn m' =>
      cases goesOn with
      | true => exact absurd hx (ha m')
      | false => rfl
    | error e m' => rfl

theorem runFor_of_goesOn (setup : Setup) (steps : Nat) (host : Host σ) (budget : Nat)
    (hc : inv.code.bytes[m.frame.pc]? = some opcode)
    (ha : advance setup host inv opcode m = .ok true m') :
    runFor (setup.withSteps steps) host inv (budget + 1) m =
      runFor (setup.withSteps steps) host inv budget m' := by
  rw [runFor_of_opcode _ host _ hc, advance_withSteps, Action.bind_of_ok ha, if_pos rfl]

/-- Every budget is used up or suffices. -/
theorem usedUp_or_suffices (setup : Setup) (inv : Invocation) (hh : host.NeverLimits I)
    (budget : Nat) (m : Machine σ) (hm : I m.world.host) :
    UsedUp setup host inv budget m ∨ Suffices setup host inv budget m := by
  -- a frame that goes on leaves it to the machine it goes on with and a step less
  induction budget generalizing m with
  | zero =>
    cases hc : inv.code.bytes[m.frame.pc]? with
    | none => exact .inr (suffices_of_ended setup host 0 hc)
    | some opcode =>
      have hlt : m.frame.pc < inv.code.size := (Array.getElem?_eq_some_iff.1 hc).1
      refine .inl ⟨m, .zero m, hlt, fun steps => ?_⟩
      rw [runFor, fetch_bind, hc]
      rfl
  | succ budget ih =>
    cases hc : inv.code.bytes[m.frame.pc]? with
    | none => exact .inr (suffices_of_ended setup host _ hc)
    | some opcode =>
      by_cases hg : ∃ m', advance setup host inv opcode m = .ok true m'
      · obtain ⟨m', ha⟩ := hg
        have hm' : I m'.world.host := by
          have := (advance_unlimited setup inv hh opcode m hm).1
          rwa [Action.final_of_ok ha] at this
        rcases ih m' hm' with ⟨t, hx, hlt, ht⟩ | hs
        · refine .inl ⟨t, .succ (goesOn_of_advance hc ha) hx, hlt, fun steps => ?_⟩
          rw [runFor_of_goesOn setup steps host budget hc ha, ht]
        · have hrun := runFor_of_goesOn setup setup.settings.maxSteps host budget hc ha
          refine .inr ⟨fun n t ht => ?_, fun steps extra => ?_⟩
          · exact hs.ends n t (hrun.symm.trans ht)
          · rw [show budget + 1 + extra = budget + extra + 1 by omega,
              runFor_of_goesOn setup steps host _ hc ha, hs.more]
            exact hrun.symm
      · exact .inr (suffices_of_ending hh hm budget hc (not_exists.1 hg))

/-- The budget only cuts runs short. If a frame's run does not end with the step limit's fault, it
comes to the same with every larger budget; if it does, then the limit is the budget, the frame has
executed as many instructions, each of which let it go on, and the counter is inside the code. -/
theorem run_of_budget {σ : Type} {I : σ → Prop} (setup : Setup) (host : Host σ)
    (hh : host.NeverLimits I) (inv : Invocation) (m : Machine σ) (hm : I m.world.host)
    (budget : Nat) :
    ((∀ n t, run (setup.withSteps budget) host inv m ≠ .error (.stepLimitExceeded n) t) →
      ∀ larger, budget ≤ larger →
        run (setup.withSteps larger) host inv m = run (setup.withSteps budget) host inv m) ∧
    ∀ n t, run (setup.withSteps budget) host inv m = .error (.stepLimitExceeded n) t →
      n = budget ∧ Executes setup host inv budget ⟨{ m.frame with pc := 0 }, m.world⟩ t ∧
        t.frame.pc < inv.code.size := by
  rcases usedUp_or_suffices setup inv hh budget
    ⟨{ m.frame with pc := 0 }, m.world⟩ hm with ⟨t, hx, hlt, ht⟩ | hs
  · have hcut : run (setup.withSteps budget) host inv m = .error (.stepLimitExceeded budget) t := by
      have hlimit : (setup.withSteps budget).settings.maxSteps = budget := rfl
      rw [run_apply, hlimit, ht]
    refine ⟨fun h => absurd hcut (h budget t), fun n t' hn => ?_⟩
    cases hcut.symm.trans hn
    exact ⟨rfl, hx, hlt⟩
  · have hmore (extra : Nat) : runFor (setup.withSteps (budget + extra)) host inv
        (setup.withSteps (budget + extra)).settings.maxSteps
        ⟨{ m.frame with pc := 0 }, m.world⟩ =
          runFor setup host inv budget ⟨{ m.frame with pc := 0 }, m.world⟩ := hs.more _ extra
    have hsame := hmore 0
    rw [Nat.add_zero] at hsame
    constructor
    · intro _ larger hle
      obtain ⟨extra, rfl⟩ := Nat.le.dest hle
      rw [run_apply, run_apply, hmore, hsame]
    · intro n t hn
      have hends := hs.ends n t
      rw [run_apply, hsame] at hn
      cases hr : runFor setup host inv budget ⟨{ m.frame with pc := 0 }, m.world⟩ with
      | ok a m' =>
        rw [hr] at hn
        cases hn
      | error e m' =>
        rw [hr] at hn
        cases hn
        exact absurd hr hends

def callingOnce : Invocation :=
  ⟨.zero, .zero, 0, .ofBytes #[0x5f, 0x5f, 0x5f, 0x5f, 0x5f, 0x5f, 0x5f, 0xf1], #[]⟩

def answeredOnce : Machine Script.Player :=
  ⟨.fresh 64, ⟨{}, ⟨#[{ payloads := [#[]] }], #[]⟩, {}⟩⟩

/-- The call needs eight steps, and seven do not suffice. -/
theorem callingOnce_needs_eight :
    let setup : Setup := ⟨{}, {}, Ledger.empty.committed⟩
    (∀ steps, 8 ≤ steps → run (setup.withSteps steps) Script.host callingOnce answeredOnce =
      run (setup.withSteps 8) Script.host callingOnce answeredOnce) ∧
    ∃ t, run (setup.withSteps 7) Script.host callingOnce answeredOnce =
        .error (.stepLimitExceeded 7) t ∧
      Executes setup Script.host callingOnce 7 answeredOnce t ∧ t.frame.pc < 8 := by
  intro setup
  have hm : ∀ e ∈ answeredOnce.world.host.entries, ∀ n, e.fault ≠ some (.stepLimitExceeded n) := by
    simp [answeredOnce]
  have h := run_of_budget setup Script.host Script.host_neverLimits callingOnce answeredOnce hm
  have hfinishes : (match run (setup.withSteps 8) Script.host callingOnce answeredOnce with
      | .ok _ _ => true
      | .error _ _ => false) = true := by
    decide +kernel
  have hcut : (match run (setup.withSteps 7) Script.host callingOnce answeredOnce with
      | .error (.stepLimitExceeded _) _ => true
      | _ => false) = true := by
    decide +kernel
  constructor
  · refine (h 8).1 fun n t ht => ?_
    rw [ht] at hfinishes
    cases hfinishes
  · cases hr : run (setup.withSteps 7) Script.host callingOnce answeredOnce with
    | ok output t =>
      rw [hr] at hcut
      cases hcut
    | error fault t =>
      rw [hr] at hcut
      cases fault with
      | stepLimitExceeded n =>
        obtain ⟨rfl, hx, hlt⟩ := (h 7).2 n t hr
        exact ⟨t, rfl, hx, hlt⟩
      | _ => cases hcut

end Interpreter

end SpeculativeEvm
