import SpeculativeEvm.Proofs.Execute.Effect
import SpeculativeEvm.Proofs.Execute.Resolve

/-! Two runs side by side. Instructions read of a run its overlay and its outcome only, of the host
nothing, and what they do to a run does not depend on the rest of it. So on machines with the same
frame, whose runs are related in a way that such changes respect, an instruction takes the same
steps, up to where it asks the host and again from the answer on. -/

namespace SpeculativeEvm

namespace Action

variable {σ α β : Type} {R : σ → σ → Prop}

inductive Agree (R : σ → σ → Prop) :
    EStateM.Result Fault σ α → EStateM.Result Fault σ α → Prop
  | ok {a : α} {s t : σ} (h : R s t) : Agree R (.ok a s) (.ok a t)
  | error {e : Fault} {s t : σ} (h : R s t) : Agree R (.error e s) (.error e t)

theorem Agree.mono {Q : σ → σ → Prop} {r r' : EStateM.Result Fault σ α} (hr : Agree Q r r')
    (h : ∀ ⦃s t⦄, Q s t → R s t) : Agree R r r' := by
  cases hr with
  | ok hs => exact .ok (h hs)
  | error hs => exact .error (h hs)

theorem Agree.final {x y : Action σ α} {s t : σ} (h : Agree R (x s) (y t)) :
    R (x.final s) (y.final t) := by
  unfold Action.final
  generalize x s = r at h
  generalize y t = r' at h
  cases h with
  | ok hs | error hs => exact hs

theorem Agree.bind {x y : Action σ α} {f g : α → Action σ β} {s t : σ}
    (h : Agree R (x s) (y t)) (hf : ∀ a ⦃s t⦄, R s t → Agree R (f a s) (g a t)) :
    Agree R ((x >>= f) s) ((y >>= g) t) := by
  rw [bind_apply, bind_apply]
  generalize x s = r at h
  generalize y t = r' at h
  cases h with
  | ok h => exact hf _ h
  | error h => exact .error h

/-- From related states the two actions come to agreeing results. -/
def Both (R : σ → σ → Prop) (x y : Action σ α) : Prop := ∀ ⦃s t⦄, R s t → Agree R (x s) (y t)

namespace Both

variable {x y : Action σ α}

protected theorem pure (a : α) : Both R (pure a : Action σ α) (pure a) := fun _ _ h => .ok h

protected theorem throw (e : Fault) : Both R (throw e : Action σ α) (throw e) :=
  fun _ _ h => .error h

protected theorem bind {f g : α → Action σ β} (hx : Both R x y) (hf : ∀ a, Both R (f a) (g a)) :
    Both R (x >>= f) (y >>= g) :=
  fun _ _ h => (hx h).bind hf

protected theorem map {f : α → β} (hx : Both R x y) : Both R (f <$> x) (f <$> y) := by
  intro s t h
  have ha := hx h
  rw [map_apply, map_apply]
  generalize x s = r at ha
  generalize y t = r' at ha
  cases ha with
  | ok h => exact .ok h
  | error h => exact .error h

/-- An action may look at its state as far as related states look the same to it. -/
protected theorem get_bind {f g : σ → Action σ β}
    (h : ∀ ⦃s t⦄, R s t → Agree R (f s s) (g t t)) : Both R (get >>= f) (get >>= g) := h

end Both

end Action

open SpeculativeEvm.Action Machine Execute

variable {σ : Type}

/-- What a relation of runs must grant for instructions to take the same steps on both. -/
structure Speculation.Lockstep (S : Speculation → Speculation → Prop) : Prop where
  overlay {s t : Speculation} (h : S s t) : t.overlay = s.overlay
  outcome {s t : Speculation} (h : S s t) : t.outcome = s.outcome
  recordRead {s t : Speculation} (h : S s t) (a : Address) : S (s.recordRead a) (t.recordRead a)
  recordWrite {s t : Speculation} (h : S s t) (a : Address) : S (s.recordWrite a) (t.recordWrite a)
  withOverlay {s t : Speculation} (h : S s t) (o : Overlay) :
    S { s with overlay := o } { t with overlay := o }
  withOutcome {s t : Speculation} (h : S s t) (o : Outcome) :
    S { s with outcome := o } { t with outcome := o }
  clearBelow {s t : Speculation} (h : S s t) : S s.clearBelow t.clearBelow
  handBack {s t : Speculation} (h : S s t) (output : Bytes) :
    S (s.handBack output) (t.handBack output)

namespace Speculation.Lockstep

variable {S : Speculation → Speculation → Prop} (hS : Lockstep S) {s t : Speculation} (h : S s t)

include hS h

theorem mapOverlay (f : Overlay → Overlay) :
    S { s with overlay := f s.overlay } { t with overlay := f t.overlay } := by
  rw [hS.overlay h]
  exact hS.withOverlay h (f s.overlay)

theorem mapOutcome (f : Outcome → Outcome) :
    S { s with outcome := f s.outcome } { t with outcome := f t.outcome } := by
  rw [hS.outcome h]
  exact hS.withOutcome h (f s.outcome)

theorem abort : S s.abort t.abort :=
  hS.mapOutcome h fun o => { o with aborted := true, succeeded := false }

theorem fail : S s.fail t.fail := hS.mapOutcome h fun o => { o with succeeded := false }

theorem markSelfDestructed : S s.markSelfDestructed t.markSelfDestructed :=
  hS.mapOutcome h fun o => { o with selfDestructed := true }

end Speculation.Lockstep

structure World.Paired (S : Speculation → Speculation → Prop) (Q : σ → σ → Prop)
    (w v : World σ) : Prop where
  run : S w.run v.run
  host : Q w.host v.host

/-- The worlds are paired, and the same in what the frame at work sees of the level below. -/
structure World.PairedBelow (S : Speculation → Speculation → Prop) (Q : σ → σ → Prop)
    (w v : World σ) : Prop extends w.Paired S Q v where
  payloads : v.run.payloads (v.run.level + 1) = w.run.payloads (w.run.level + 1)
  created : v.run.created? (v.run.level + 1) = w.run.created? (w.run.level + 1)

structure Machine.Paired (S : Speculation → Speculation → Prop) (Q : σ → σ → Prop)
    (m m' : Machine σ) : Prop where
  frame : m'.frame = m.frame
  world : m.world.Paired S Q m'.world

namespace Machine.Paired

variable {α : Type} {S : Speculation → Speculation → Prop} {Q : σ → σ → Prop}

abbrev Steps (S : Speculation → Speculation → Prop) (Q : σ → σ → Prop)
    (x y : Action (Machine σ) α) : Prop :=
  Both (Machine.Paired S Q) x y

/-- Paired machines differ in their worlds alone. -/
theorem of_frame {x : Action (Machine σ) α}
    (h : ∀ f ⦃w v⦄, World.Paired S Q w v → Agree (Machine.Paired S Q) (x ⟨f, w⟩) (x ⟨f, v⟩)) :
    Steps S Q x x := by
  rintro ⟨f, w⟩ ⟨f', v⟩ ⟨hf, hw⟩
  obtain rfl : f' = f := hf
  exact h f' hw

theorem onStack (act : Action Stack α) : Steps S Q (onStack act) (Machine.onStack act) := by
  refine of_frame fun ⟨pc, stack, memory, output⟩ w v h => ?_
  simp only [Machine.onStack]
  rcases act stack with ⟨a, stack⟩ | ⟨e, stack⟩
  · exact .ok ⟨rfl, h⟩
  · exact .error ⟨rfl, h⟩

theorem onMemory (act : Action Memory α) : Steps S Q (onMemory act) (Machine.onMemory act) := by
  refine of_frame fun ⟨pc, stack, memory, output⟩ w v h => ?_
  simp only [Machine.onMemory]
  rcases act memory with ⟨a, memory⟩ | ⟨e, memory⟩
  · exact .ok ⟨rfl, h⟩
  · exact .error ⟨rfl, h⟩

theorem onRun {f g : Speculation → Speculation} (hf : ∀ ⦃s t⦄, S s t → S (f s) (g t)) :
    Steps S Q (onRun f) (Machine.onRun g) :=
  fun _ _ h => .ok ⟨h.frame, hf h.world.run, h.world.host⟩

theorem readRun {f g : Speculation → α} (hf : ∀ ⦃s t⦄, S s t → g t = f s) :
    Steps S Q (readRun f) (Machine.readRun g) := by
  intro m m' h
  unfold Machine.readRun
  rw [hf h.world.run]
  exact .ok h

/-- Notes may tell of different runs. -/
theorem note (event event' : Machine σ → Event) :
    Steps S Q (note event) (Machine.note event') := by
  intro m m' h
  rw [note_apply, note_apply]
  exact .ok ⟨h.frame, h.world.run, h.world.host⟩

theorem check (r : Except Fault α) : Steps S Q (check r) (Machine.check r) := by
  cases r with
  | ok a => exact .pure a
  | error e => exact .throw e

theorem pc : Steps S Q pc Machine.pc := of_frame fun _ _ _ h => .ok ⟨rfl, h⟩

theorem setPc (n : Nat) : Steps S Q (setPc n) (Machine.setPc n) :=
  of_frame fun _ _ _ h => .ok ⟨rfl, h⟩

theorem setOutput (output : Bytes) :
    Steps S Q (setOutput output) (Machine.setOutput output) :=
  of_frame fun _ _ _ h => .ok ⟨rfl, h⟩

theorem takeOutput : Steps S Q takeOutput Machine.takeOutput :=
  of_frame fun _ _ _ h => .ok ⟨rfl, h⟩

/-! Instructions, step by step. -/

theorem pushWord (w : Word) : Steps S Q (pushWord w : Action (Machine σ) Control) (pushWord w) :=
  .bind (onStack _) fun _ => .pure _

theorem drop (n : Nat) : Steps S Q (drop n : Action (Machine σ) Unit) (Execute.drop n) := by
  induction n with
  | zero => exact .pure _
  | succ n ih => exact .bind (.map (onStack _)) fun _ => ih

theorem alone {act act' : Action (Machine σ) Control} (h : Steps S Q act act') :
    Steps S Q (alone act) (Execute.alone act') :=
  .bind h fun _ => .pure _

theorem quantity (setup : Setup) (inv : Invocation) (q : Quantity) :
    Steps S Q (quantity setup inv q : Action (Machine σ) Control)
      (Execute.quantity setup inv q) := by
  refine .get_bind fun m m' h => ?_
  rw [h.frame]
  exact Both.bind (check _) (fun _ => pushWord _) h

section Instructions

variable (hS : Speculation.Lockstep S)

include hS

theorem beginRequest (op : String) (target : Option Address) :
    Steps S Q (beginRequest op target : Action (Machine σ) Unit) (Execute.beginRequest op target) :=
  .bind (onRun fun _ _ h => hS.clearBelow h) fun _ => note _ _

theorem askCall (kind : CallKind) (target : Address) (input output : Except Fault Span)
    (request : Bytes → Request) :
    Steps S Q (askCall kind target input output request : Action (Machine σ) Progress)
      (Execute.askCall kind target input output request) :=
  .bind (check _) fun _ => .bind (check _) fun _ => .bind (beginRequest hS _ _) fun _ =>
    .bind (onMemory _) fun _ => .pure _

theorem call (kind : CallKind) :
    Steps S Q (call kind : Action (Machine σ) Progress) (Execute.call kind) := by
  cases kind with
  | call | callCode =>
    exact .bind (onStack _) fun ⟨⟨[_, _, _, _, _, _, _]⟩, _⟩ => askCall hS _ _ _ _ _
  | delegateCall | staticCall =>
    exact .bind (onStack _) fun ⟨⟨[_, _, _, _, _, _]⟩, _⟩ => askCall hS _ _ _ _ _

theorem askCreate (op : String) (init : Except Fault Span) (request : Bytes → Request) :
    Steps S Q (askCreate op init request : Action (Machine σ) Progress)
      (Execute.askCreate op init request) :=
  .bind (check _) fun _ => .bind (onMemory _) fun _ => .bind (beginRequest hS _ _) fun _ => .pure _

theorem giveBack : Steps S Q (giveBack : Action (Machine σ) Control) Execute.giveBack := by
  refine .bind (onStack _) fun ⟨⟨[_, _]⟩, _⟩ => .bind (check _) fun _ =>
    .bind (onMemory _) fun output => ?_
  split
  · next hz =>
    refine .bind (onRun fun s t h => ?_) fun _ => .bind (setOutput _) fun _ => .pure _
    have hb := hS.handBack h output
    unfold Speculation.handBack at hb
    rwa [if_pos hz, if_pos hz] at hb
  · exact .bind (setOutput _) fun _ => .pure _

theorem answer_eq (setup : Setup) {s t : Speculation} (h : S s t) (a : Address)
    (query : AccountQuery) : answer setup t a query = answer setup s a query := by
  cases query with
  | balance => rw [answer, answer, hS.overlay h]
  | codeSize | codeHash => rfl

theorem account (setup : Setup) (query : AccountQuery) :
    Steps S Q (account setup query : Action (Machine σ) Control) (Execute.account setup query) := by
  refine .bind (onStack _) fun w => .get_bind fun m m' h => ?_
  rw [answer_eq hS setup h.world.run]
  exact Both.bind (onStack _) (fun _ => .bind (onRun fun _ _ h => hS.recordRead h _) fun _ =>
    .pure _) h

theorem selfBalance (setup : Setup) (inv : Invocation) :
    Steps S Q (selfBalance setup inv : Action (Machine σ) Control)
      (Execute.selfBalance setup inv) := by
  refine .bind (readRun fun _ _ h => ?_) fun _ =>
    .bind (onRun fun _ _ h => hS.recordRead h _) fun _ => pushWord _
  rw [hS.overlay h]

theorem extCodeCopy (setup : Setup) :
    Steps S Q (extCodeCopy setup : Action (Machine σ) Control) (Execute.extCodeCopy setup) :=
  .bind (onStack _) fun ⟨⟨[_, _, _, _]⟩, _⟩ => .bind (check _) fun _ => .bind (onMemory _) fun _ =>
    .bind (onRun fun _ _ h => hS.recordRead h _) fun _ => .pure _

theorem sload (setup : Setup) (inv : Invocation) :
    Steps S Q (sload setup inv : Action (Machine σ) Control) (Execute.sload setup inv) := by
  refine .bind (onStack _) fun _ => .bind (readRun fun _ _ h => ?_) fun _ =>
    .bind (onStack _) fun _ => .bind (onRun fun _ _ h => hS.recordRead h _) fun _ => .pure _
  rw [hS.overlay h]

theorem sstore (inv : Invocation) :
    Steps S Q (sstore inv : Action (Machine σ) Control) (Execute.sstore inv) :=
  .bind (onStack _) fun ⟨⟨[slot, value]⟩, _⟩ => .bind (note _ _) fun _ =>
    .bind (onRun fun _ _ h => hS.mapOverlay h (·.setStorage inv.address slot value)) fun _ =>
      .bind (onRun fun _ _ h => hS.recordWrite h _) fun _ => .pure _

theorem invalid : Steps S Q (invalid : Action (Machine σ) Control) Execute.invalid :=
  .bind (onRun fun _ _ h => hS.fail h) fun _ => .pure _

theorem selfDestruct (setup : Setup) (inv : Invocation) :
    Steps S Q (selfDestruct setup inv : Action (Machine σ) Control)
      (Execute.selfDestruct setup inv) := by
  refine .bind (onStack _) fun w => .bind (readRun fun _ _ h => ?_) fun balance =>
    .bind (onRun fun _ _ h => ?_) fun _ => .bind (onRun fun _ _ h => hS.recordRead h _)
      fun _ => .bind (onRun fun _ _ h => hS.recordWrite h _) fun _ =>
        .bind (onRun fun _ _ h => hS.markSelfDestructed h) fun _ => .bind (note _ _) fun _ =>
          .pure _
  · rw [hS.overlay h]
  · exact hS.mapOverlay h fun o => o.credit setup.committed (.ofWord w) balance

/-- Up to where the host is asked an instruction takes the same steps on paired machines. -/
theorem start (setup : Setup) (inv : Invocation) (i : Instruction) :
    Steps S Q (start setup inv i : Action (Machine σ) Progress) (Execute.start setup inv i) := by
  cases i with
  | stop | jumpDest => exact .pure _
  | undefined byte => exact .throw _
  | unary | blockHash | callDataLoad =>
    exact alone (.bind (onStack _) fun _ => .bind (onStack _) fun _ => .pure _)
  | binary =>
    exact alone (.bind (onStack _) fun _ => .bind (onStack _) fun _ => .bind (onStack _) fun _ =>
      .pure _)
  | ternary =>
    exact alone (.bind (onStack _) fun _ => .bind (onStack _) fun _ => .bind (onStack _) fun _ =>
      .bind (onStack _) fun _ => .pure _)
  | keccak =>
    exact alone (.bind (onStack _) fun _ => .bind (onStack _) fun _ => .bind (check _) fun _ =>
      .bind (onMemory _) fun _ => .bind (onStack _) fun _ => .pure _)
  | quantity q => exact alone (quantity setup inv q)
  | copy =>
    exact alone (.bind (onStack _) fun ⟨⟨[_, _, _]⟩, _⟩ => .bind (check _) fun _ =>
      .bind (onMemory _) fun _ => .pure _)
  | returnDataCopy | pop => exact alone (.bind (.map (onStack _)) fun _ => .pure _)
  | mload =>
    exact alone (.bind (onStack _) fun _ => .bind (check _) fun _ => .bind (onMemory _) fun _ =>
      .bind (onStack _) fun _ => .pure _)
  | mstore | mstore8 =>
    exact alone (.bind (onStack _) fun ⟨⟨[_, _]⟩, _⟩ => .bind (check _) fun _ =>
      .bind (onMemory _) fun _ => .pure _)
  | jump => exact alone (.bind (onStack _) fun _ => .pure _)
  | jumpIf => exact alone (.bind (onStack _) fun ⟨⟨[_, _]⟩, _⟩ => .pure _)
  | push =>
    exact alone (.bind pc fun _ => .bind (onStack _) fun _ => .bind (setPc _) fun _ => .pure _)
  | dup | swap => exact alone (.bind (onStack _) fun _ => .pure _)
  | log topics => exact alone (.bind (drop _) fun _ => .pure _)
  | account query => exact alone (account hS setup query)
  | selfBalance => exact alone (selfBalance hS setup inv)
  | extCodeCopy => exact alone (extCodeCopy hS setup)
  | sload => exact alone (sload hS setup inv)
  | sstore => exact alone (sstore hS inv)
  | invalid => exact alone (invalid hS)
  | selfDestruct => exact alone (selfDestruct hS setup inv)
  | ret | revert => exact alone (giveBack hS)
  | call kind => exact call hS kind
  | create => exact .bind (onStack _) fun ⟨⟨[_, _, _]⟩, _⟩ => askCreate hS _ _ _
  | saltedCreate => exact .bind (onStack _) fun ⟨⟨[_, _, _, _]⟩, _⟩ => askCreate hS _ _ _

theorem moveOn (inv : Invocation) (opcode : UInt8) (control : Control) :
    Steps S Q (Interpreter.moveOn inv opcode control : Action (Machine σ) Bool)
      (Interpreter.moveOn inv opcode control) := by
  refine .bind (readRun fun _ _ h => ?_) fun aborted => ?_
  · rw [hS.outcome h]
  split
  · exact .bind (note _ _) fun _ => .pure _
  rcases control with - | dest | -
  · exact .bind pc fun _ => .bind (setPc _) fun _ => .pure _
  · exact .bind (setPc _) fun _ => .pure _
  · exact .pure _

/-- When the host has answered, what the instruction finds one level below decides. -/
theorem resolve (resolution : Resolution) {m m' : Machine σ} (hf : m'.frame = m.frame)
    (hw : m.world.PairedBelow S Q m'.world) :
    Agree (Machine.Paired S Q) (resolve resolution m) (Execute.resolve resolution m') := by
  have h : m.Paired S Q m' := ⟨hf, hw.toPaired⟩
  have hu : m'.world.run.outcome = m.world.run.outcome := hS.outcome hw.run
  have habort : Steps S Q (do Machine.onRun Speculation.abort; return Control.halt)
      (do Machine.onRun Speculation.abort; return Control.halt) :=
    .bind (onRun fun _ _ h => hS.abort h) fun _ => .pure _
  rcases ha : m.world.run.outcome.aborted with - | -
  · rw [resolve_of_not_aborted ha, resolve_of_not_aborted (hu ▸ ha)]
    rcases resolution with ⟨op, output⟩ | -
    · simp only [resolveCall, readRun_bind, hw.payloads]
      rcases m.world.run.payloads (m.world.run.level + 1) with - | ⟨payload, - | ⟨other, rest⟩⟩
      · exact Both.bind (note _ _) (fun _ => habort) h
      · exact Both.bind (note _ _) (fun _ => .bind (onMemory _) fun _ => pushWord _) h
      · exact Both.bind (note _ _) (fun _ => habort) h
    · simp only [resolveCreate, readRun_bind, hw.created]
      exact Both.bind (note _ _) (fun _ => pushWord _) h
  · rw [resolve_of_aborted ha, resolve_of_aborted (hu ▸ ha)]
    exact .ok h

/-- Where the hosts give paired answers to what the instruction asks, it comes to the same. -/
theorem execute {setup setup' : Setup} {host host' : Host σ} (inv : Invocation) (i : Instruction)
    (hs : (Execute.start setup' inv i : Action (Machine σ) Progress) =
      Execute.start setup inv i) {m m' : Machine σ} (h : m.Paired S Q m')
    (hh : ∀ request resolution t t',
      Execute.start setup inv i m = .ok (.ask request resolution) t →
      Execute.start setup inv i m' = .ok (.ask request resolution) t' →
      t.world.Paired S Q t'.world → Agree (World.PairedBelow S Q) (host inv request t.world)
        (host' inv request t'.world)) :
    Agree (Machine.Paired S Q) (execute setup host inv i m)
      (SpeculativeEvm.execute setup' host' inv i m') := by
  have ha : Agree (Machine.Paired S Q) _ _ := start hS setup inv i h
  unfold SpeculativeEvm.execute
  rw [hs, bind_apply, bind_apply]
  generalize hx : Execute.start setup inv i m = r at ha
  generalize hx' : Execute.start setup inv i m' = r' at ha
  rcases ha with ⟨ht⟩ | ⟨ht⟩
  · next progress t t' =>
    rcases progress with control | ⟨request, resolution⟩
    · exact .ok ht
    · have ha := hh request resolution t t' hx hx' ht.world
      simp only [onWorld_bind]
      generalize host inv request t.world = r at ha
      generalize host' inv request t'.world = r' at ha
      rcases ha with ⟨hw⟩ | ⟨hw⟩
      · exact resolve hS resolution ht.frame hw
      · exact .error ⟨ht.frame, hw.toPaired⟩
  · exact .error ht

end Instructions

end Machine.Paired

end SpeculativeEvm
