import SpeculativeEvm.Proofs.Memory
import SpeculativeEvm.Proofs.Nesting.Bounds

/-! What a call or creation comes to, by how the frame it asks for ends. The host's answer shows in
the tables one level below: nothing for a frame that did not run or faulted, its output and, for a
creation, its address for one that ran to completion. The instruction is resolved from just that. -/

namespace SpeculativeEvm

open Execute Speculation

inductive FrameEnd
  | notRun
  | faulted (e : Fault)
  | aborted
  | completed (output : Bytes)
  deriving DecidableEq

namespace Nesting

/-- The end of the frame `next` of a frame whose world is `w` when it asks for it. -/
def frameEnd (setup : Setup) (next : Invocation) (w : World Nonces) : FrameEnd :=
  if setup.settings.maxCallDepth ≤ w.run.level then .notRun
  else
    match execute setup next (entry setup w) with
    | .ok output m => if m.world.run.outcome.aborted then .aborted else .completed output
    | .error e _ => .faulted e

end Nesting

namespace Speculation

structure Shows (s : Speculation) (n : Nat) (handed : List Bytes) (made : Option Address) :
    Prop where
  level : s.level = n
  aborted : s.outcome.aborted = false
  payloads : s.payloads (n + 1) = handed
  created : s.created? (n + 1) = made

theorem payloads_handBack_of_nil {s : Speculation} (h : s.payloads s.level = []) (output : Bytes) :
    (s.handBack output).payloads s.level = if output.size = 0 then [] else [output] := by
  rw [payloads_handBack, h]
  by_cases hz : output.size = 0
  · rw [if_neg fun hn => hn.2.1 hz, if_pos hz]
  · rw [if_pos ⟨rfl, hz, List.not_mem_nil⟩, if_neg hz]
    rfl

end Speculation

open Nesting

inductive Answered (level : Nat) (isCreation : Bool) (next : Invocation) :
    FrameEnd → EStateM.Result Fault (World Nonces) Unit → Prop
  | notRun {w : World Nonces} (h : w.run.Shows level [] none) :
    Answered level isCreation next .notRun (.ok () w)
  | failed {e : Fault} {w : World Nonces} (he : e.isFatal = false) (h : w.run.Shows level [] none) :
    Answered level isCreation next (.faulted e) (.ok () w)
  | fatal {e : Fault} {w : World Nonces} (he : e.isFatal = true)
    (h : w.run.payloads (level + 1) = []) : Answered level isCreation next (.faulted e) (.error e w)
  | aborted {w : World Nonces} (ha : w.run.outcome.aborted = true)
    (h : (w.run.payloads (level + 1)).length ≤ 1) :
    Answered level isCreation next .aborted (.ok () w)
  | completed {output : Bytes} {w : World Nonces}
    (h : w.run.Shows level (if output.size = 0 then [] else [output])
      (if isCreation then some next.address else none)) :
    Answered level isCreation next (.completed output) (.ok () w)

section Host

variable {setup : Setup} {inv next : Invocation} {request : Request} {w w' : World Nonces}
  {depth : Nat} {m : Machine Nonces}

/-- The level below a caller after a frame there has run to completion. -/
theorem tables_of_run_ok {output : Bytes} (h : w.run.Shows w.run.level [] none)
    (hm : Interpreter.run setup (host setup depth) next (entry setup w) = .ok output m) :
    m.world.ascend.run.level = w.run.level ∧
      m.world.ascend.run.payloads (w.run.level + 1) = (if output.size = 0 then [] else [output]) ∧
      m.world.ascend.run.created? (w.run.level + 1) = none := by
  have hn := (notAbove_respected setup).run ((notAbove_respected setup).host depth) next
    (entry setup w)
  rw [Action.final_of_ok hm] at hn
  refine ⟨hn.ascend.level, ?_, (hn.created (Nat.le_refl _)).trans h.created⟩
  rw [← payloads_handBack_of_nil (s := w.run.descend) h.payloads]
  exact payloads_of_run_ok setup next (host_beneath setup depth) (host_faultsInTime setup depth) rfl
    h.aborted hm

/-- A frame that faults leaves nothing for its caller to see. -/
theorem shows_of_run_error {e : Fault} (h : w.run.Shows w.run.level [] none)
    (hm : Interpreter.run setup (host setup depth) next (entry setup w) = .error e m) :
    m.world.ascend.run.Shows w.run.level [] none := by
  have hn := (notAbove_respected setup).run ((notAbove_respected setup).host depth) next
    (entry setup w)
  rw [Action.final_of_error hm] at hn
  obtain ⟨hp, ha⟩ := of_run_error setup next (host_beneath setup depth)
    (host_faultsInTime setup depth) rfl h.aborted hm
  exact ⟨hn.ascend.level, ha, hp.trans h.payloads, (hn.created (Nat.le_refl _)).trans h.created⟩

theorem host_answered (hc : child setup inv request w = .ok next w')
    (h : w'.run.Shows w'.run.level [] none) :
    Answered w'.run.level request.isCreation next (frameEnd setup next w')
      (host setup (setup.settings.maxCallDepth - w'.run.level) inv request w) := by
  by_cases hd : setup.settings.maxCallDepth ≤ w'.run.level
  · rw [frameEnd, if_pos hd, Nat.sub_eq_zero_of_le hd, host, serve_apply hc, refuse_apply]
    exact .notRun h
  obtain ⟨depth, hdepth⟩ : ∃ depth, setup.settings.maxCallDepth - w'.run.level = depth + 1 :=
    ⟨setup.settings.maxCallDepth - w'.run.level - 1, by omega⟩
  have hx : Nesting.execute setup next (entry setup w') =
      Interpreter.run setup (host setup depth) next (entry setup w') := by
    have hl : setup.settings.maxCallDepth - (w'.run.level + 1) = depth := by omega
    rw [← hl]
    rfl
  rw [frameEnd, if_neg hd, hx, hdepth, host, serve_apply hc, enter_apply]
  rcases hm : Interpreter.run setup (host setup depth) next (entry setup w') with
    ⟨output, m⟩ | ⟨e, m⟩
  · obtain ⟨hl, hp, hcr⟩ := tables_of_run_ok h hm
    simp only [Bool.true_and]
    cases ha : m.world.run.outcome.aborted with
    | true =>
      have hlen : (m.world.ascend.run.payloads (w'.run.level + 1)).length ≤ 1 := by
        rw [hp]
        split <;> simp
      cases request.isCreation with
      | true => exact .aborted ha hlen
      | false => exact .aborted ha hlen
    | false =>
      refine .completed ?_
      cases request.isCreation with
      | true =>
        refine ⟨hl, ha, hp, ?_⟩
        show (m.world.ascend.run.setCreated _ _).created? _ = _
        rw [created?_setCreated, hl, if_pos rfl, if_pos rfl]
      | false => exact ⟨hl, ha, hp, hcr⟩
  · have hs := shows_of_run_error h hm
    cases he : e.isFatal with
    | true =>
      simp only [he, if_true]
      exact .fatal he hs.payloads
    | false =>
      simp only [he]
      exact .failed he hs

end Host

/-- `data`, cut or filled with zeros to its size, has been written to the range. In the last word of
the address space there is no aligned size to grow to. -/
structure Memory.Written (target : Span) (data : Bytes) (m m' : Memory) : Prop where
  set : set target.offset target.size data m = .ok () m'
  bytes : target.offset + target.size ≤ addressSpace - 32 → ∀ i, m'.data.at0 i =
    if target.offset ≤ i ∧ i < target.offset + target.size then data.at0 (i - target.offset)
    else m.data.at0 i

/-- Whether the range that a call's output goes to lies within the memory's limit. -/
def Resolution.Fits (limit : Nat) : Resolution → Prop
  | .call _ output => output.size = 0 ∨ Memory.refusal limit output.offset output.size = none
  | .create => True

section Resolved

variable {σ : Type}

/-- The frame halts in an aborted run: its `n` operands are gone, nothing is pushed or written. -/
def GivesUp (n : Nat) (m : Machine σ) (r : EStateM.Result Fault (Machine σ) Control) : Prop :=
  ∃ m', r = .ok .halt m' ∧ m'.world.run.outcome.aborted = true ∧
    m'.frame.stack.words = m.frame.stack.words.drop n ∧ m'.frame.memory = m.frame.memory

/-- The frame goes on with `w` in the place of its `n` operands. -/
def Pushes (n : Nat) (w : Word) (m : Machine σ) (r : EStateM.Result Fault (Machine σ) Control) :
    Prop :=
  ∃ m', r = .ok .next m' ∧ m'.world.run.outcome.aborted = false ∧
    m'.frame.stack.words = w :: m.frame.stack.words.drop n ∧ m'.frame.memory = m.frame.memory

/-- The frame goes on with 1 in the place of its `n` operands and `data` in its memory, the one
payload of the level below. -/
def Returns (n : Nat) (target : Span) (data : Bytes) (m : Machine σ)
    (r : EStateM.Result Fault (Machine σ) Control) : Prop :=
  ∃ m', r = .ok .next m' ∧ m'.world.run.outcome.aborted = false ∧
    m'.world.run.payloads (m.world.run.level + 1) = [data] ∧
    m'.frame.stack.words = 1 :: m.frame.stack.words.drop n ∧
    Memory.Written target data m.frame.memory m'.frame.memory

/-- What a call or creation with `n` operands comes to, by how its nested frame ends. -/
def Resolved (n : Nat) (created : Address) (m : Machine σ)
    (r : EStateM.Result Fault (Machine σ) Control) : Resolution → FrameEnd → Prop
  | .call _ target, .completed data =>
    if data.size = 0 then GivesUp n m r else Returns n target data m r
  | .call _ _, .notRun => GivesUp n m r
  | .call _ _, .faulted e => if e.isFatal then ∃ m', r = .error e m' else GivesUp n m r
  | .create, .completed _ => Pushes n created.toWord m r
  | .create, .notRun => Pushes n 0 m r
  | .create, .faulted e => if e.isFatal then ∃ m', r = .error e m' else Pushes n 0 m r
  | _, .aborted => GivesUp n m r

/-! Resolving once the host has answered with the world `w`; `m₁` is the machine that asked. -/

variable {n : Nat} {m m₁ : Machine σ} {w : World σ} {made : Option Address}

theorem resolve_givesUp (hk : m.Asking n m₁) (ha : w.run.outcome.aborted = true)
    (resolution : Resolution) : GivesUp n m (resolve resolution ⟨m₁.frame, w⟩) :=
  ⟨⟨m₁.frame, w⟩, resolve_of_aborted ha resolution, ha, hk.stack, hk.memory⟩

theorem resolve_call_of_nil (hk : m.Asking n m₁) (hw : w.run.Shows m.world.run.level [] made)
    (op : String) (target : Span) : GivesUp n m (resolve (.call op target) ⟨m₁.frame, w⟩) := by
  rw [resolve_of_not_aborted hw.aborted]
  have hp (payload : Bytes) : w.run.payloads (w.run.level + 1) ≠ [payload] := by
    rw [hw.level, hw.payloads]
    exact (List.cons_ne_nil _ _).symm
  obtain ⟨journal, he⟩ := resolveCall_of_ne_singleton (m := ⟨m₁.frame, w⟩) op target hp
  exact ⟨_, he, rfl, hk.stack, hk.memory⟩

section Push

variable (hn : 0 < n) (hm : m.frame.stack.depth ≤ maxStackDepth)

include hn hm

/-- There is room for a result where operands have been. -/
theorem depth_lt_of_asking (hk : m.Asking n m₁) : m₁.frame.stack.depth < maxStackDepth := by
  have hlen : m₁.frame.stack.depth = m.frame.stack.depth - n := by
    rw [Stack.depth, hk.stack, List.length_drop, Stack.depth]
  unfold maxStackDepth at hm ⊢
  omega

theorem resolve_call_of_singleton (hk : m.Asking n m₁) {data : Bytes}
    (hw : w.run.Shows m.world.run.level [data] made) (op : String) {target : Span}
    (ht : (Resolution.call op target).Fits m.frame.memory.limit) :
    Returns n target data m (resolve (.call op target) ⟨m₁.frame, w⟩) := by
  have hp : w.run.payloads (w.run.level + 1) = [data] := by
    rw [hw.level, hw.payloads]
  obtain ⟨memory, hset⟩ := m.frame.memory.set_ok ht data
  have hroom := depth_lt_of_asking hn hm hk
  obtain ⟨journal, he⟩ :=
    resolveCall_next (m := ⟨m₁.frame, w⟩) op hp (hk.memory ▸ hset) hroom
  rw [resolve_of_not_aborted hw.aborted]
  refine ⟨_, he, hw.aborted, hw.payloads, ?_, hset, Memory.at0_set _ hset⟩
  rw [hk.stack]

theorem resolve_create (hk : m.Asking n m₁) {handed : List Bytes}
    (hw : w.run.Shows m.world.run.level handed made) :
    Pushes n (made.getD .zero).toWord m (resolve .create ⟨m₁.frame, w⟩) := by
  obtain ⟨journal, he⟩ := resolveCreate_apply ⟨m₁.frame, w⟩
  rw [resolve_of_not_aborted hw.aborted]
  simp only [he, hw.level, hw.created]
  rw [pushWord_apply, if_pos (depth_lt_of_asking hn hm hk)]
  refine ⟨_, rfl, hw.aborted, ?_, hk.memory⟩
  rw [hk.stack]

end Push

end Resolved

theorem Instruction.Asks.requestArity_pos {i : Instruction} {request : Request}
    {resolution : Resolution} (h : i.Asks request resolution) : 0 < i.requestArity := by
  cases i with
  | call kind => cases kind <;> decide
  | create | saltedCreate => decide
  | _ => cases h

theorem Instruction.Asks.isCreation {i : Instruction} {request : Request}
    (h : i.Asks request .create) : request.isCreation = true := by
  cases i with
  | call kind =>
    obtain ⟨-, output, he⟩ := h
    cases he
  | create | saltedCreate => exact h.1
  | _ => cases h

section Request

variable {i : Instruction} {m m₁ : Machine Nonces} {request : Request} {resolution : Resolution}
  {next : Invocation} {fe : FrameEnd} {r : EStateM.Result Fault (World Nonces) Unit}

def afterAnswer (m₁ : Machine Nonces) (resolution : Resolution) :
    EStateM.Result Fault (World Nonces) Unit → EStateM.Result Fault (Machine Nonces) Control
  | .ok _ w => resolve resolution ⟨m₁.frame, w⟩
  | .error e w => .error e ⟨m₁.frame, w⟩

theorem resolved_of_answered (hm : m.frame.stack.depth ≤ maxStackDepth)
    (hi : i.Asks request resolution) (hk : m.Asking i.requestArity m₁)
    (ht : resolution.Fits m.frame.memory.limit)
    (h : Answered m.world.run.level request.isCreation next fe r) :
    Resolved i.requestArity next.address m (afterAnswer m₁ resolution r) resolution fe := by
  have hn := hi.requestArity_pos
  cases resolution with
  | call op target =>
    cases h with
    | notRun h => exact resolve_call_of_nil hk h op target
    | failed he h =>
      simp only [Resolved, he]
      exact resolve_call_of_nil hk h op target
    | fatal he h =>
      simp only [Resolved, he]
      exact ⟨_, rfl⟩
    | aborted ha h => exact resolve_givesUp hk ha (.call op target)
    | @completed data w h =>
      by_cases hz : data.size = 0
      · simp only [if_pos hz] at h
        simp only [Resolved, if_pos hz]
        exact resolve_call_of_nil hk h op target
      · simp only [if_neg hz] at h
        simp only [Resolved, if_neg hz]
        exact resolve_call_of_singleton hn hm hk h op ht
  | create =>
    cases h with
    | notRun h => exact resolve_create hn hm hk h
    | failed he h =>
      simp only [Resolved, he]
      exact resolve_create hn hm hk h
    | fatal he h =>
      simp only [Resolved, he]
      exact ⟨_, rfl⟩
    | aborted ha h => exact resolve_givesUp hk ha .create
    | completed h =>
      simp only [hi.isCreation, if_true] at h
      exact resolve_create hn hm hk h

theorem Answered.length_payloads {n : Nat} {isCreation : Bool} {x : Action (World Nonces) Unit}
    {w : World Nonces} (h : Answered n isCreation next fe (x w)) :
    ((x.final w).run.payloads (n + 1)).length ≤ 1 := by
  rw [Action.final]
  generalize x w = r at h
  cases h with
  | notRun h | failed _ h => simp only [h.payloads, List.length_nil, Nat.zero_le]
  | fatal _ h => simp only [h, List.length_nil, Nat.zero_le]
  | aborted _ h => exact h
  | completed h =>
    simp only [h.payloads]
    split <;> simp

/-- A call that goes on has pushed 1. -/
theorem Resolved.call_next {n : Nat} {created : Address} {op : String} {target : Span}
    {m' : Machine Nonces}
    (h : Resolved n created m (.ok .next m') (.call op target) fe) :
    m'.frame.stack.words = 1 :: m.frame.stack.words.drop n := by
  have hgive : ¬ GivesUp n m (.ok .next m') := by
    rintro ⟨t, ht, -⟩
    cases ht
  cases fe with
  | notRun | aborted => exact absurd h hgive
  | faulted e =>
    simp only [Resolved] at h
    split at h
    · obtain ⟨t, ht⟩ := h
      cases ht
    · exact absurd h hgive
  | completed data =>
    simp only [Resolved] at h
    split at h
    · exact absurd h hgive
    · obtain ⟨t, ht, -, -, hw, -⟩ := h
      cases ht
      exact hw

variable {setup : Setup} {inv : Invocation} {w : World Nonces}

/-- The level below is cleared before the host is asked. -/
theorem answered_of_asking {n : Nat} (hk : m.Asking n m₁)
    (ha : m.world.run.outcome.aborted = false)
    (hc : child setup inv request m₁.world = .ok next w) :
    Answered m.world.run.level request.isCreation next (frameEnd setup next w)
      (host setup (setup.settings.maxCallDepth - m.world.run.level) inv request m₁.world) := by
  have hrun : w.run = m.world.run.clearBelow := (run_of_child hc).trans hk.run
  have hl : w.run.level = m.world.run.level := by
    rw [hrun]
    rfl
  have hw : w.run.Shows w.run.level [] none := by
    refine ⟨rfl, ?_, ?_, ?_⟩
    · rw [hrun]
      exact ha
    · rw [hl, hrun, payloads_clearBelow, if_pos rfl]
    · rw [hl, hrun, created?_clearBelow, if_pos rfl]
  have h := host_answered hc hw
  rwa [hl] at h

theorem execute_of_ask {host : Host Nonces}
    (hs : start setup inv i m = .ok (.ask request resolution) m₁) :
    execute setup host inv i m = afterAnswer m₁ resolution (host inv request m₁.world) := by
  rw [execute, Action.bind_of_ok hs]
  simp only [Machine.onWorld_bind]
  cases host inv request m₁.world <;> rfl

theorem returned_final_execute {host : Host Nonces}
    (hs : start setup inv i m = .ok (.ask request resolution) m₁) :
    ((execute setup host inv i).final m).world.run.returned =
      ((host inv request).final m₁.world).run.returned := by
  rw [execute, Action.final_bind_of_ok hs]
  rcases Action.final_bind_cases (Machine.onWorld (host inv request))
    (fun _ => resolve resolution) m₁ with ⟨u, -, he⟩ | ⟨-, he⟩
  · rw [he, returned_final_resolve, Machine.final_onWorld]
  · rw [he, Machine.final_onWorld]

theorem resolved_of_ask (hm : m.frame.stack.depth ≤ maxStackDepth)
    (ha : m.world.run.outcome.aborted = false)
    (hs : start setup inv i m = .ok (.ask request resolution) m₁)
    (ht : resolution.Fits m.frame.memory.limit)
    (hc : child setup inv request m₁.world = .ok next w) :
    Resolved i.requestArity next.address m
      (execute setup (host setup (setup.settings.maxCallDepth - m.world.run.level)) inv i m)
      resolution (frameEnd setup next w) := by
  obtain ⟨hi, hk⟩ := start_ask setup inv hs
  rw [execute_of_ask hs]
  exact resolved_of_answered hm hi hk ht (answered_of_asking hk ha hc)

/-- At every point of a run that starts with a stack within the limit and has not aborted, what the
instruction asks for is resolved by how its frame ends. No point comes after an abort. -/
theorem Point.resolved_of_reaches {p : Point} {opcode : UInt8}
    (hm : m.frame.stack.depth ≤ maxStackDepth) (ha : m.world.run.outcome.aborted = false)
    (hr : Reaches setup (start setup inv m) p)
    (hs : Execute.start setup p.inv i (p.noted opcode) = .ok (.ask request resolution) m₁)
    (ht : resolution.Fits p.machine.frame.memory.limit) :
    ∃ next w, child setup p.inv request m₁.world = .ok next w ∧
      Resolved i.requestArity next.address (p.noted opcode)
        (execute setup (host setup p.depth) p.inv i (p.noted opcode)) resolution
        (frameEnd setup next w) := by
  have hp := sound_of_reaches inv hm ha hr
  obtain ⟨next, nonces, hc⟩ := child_ok setup p.inv request m₁.world
  refine ⟨next, _, hc, ?_⟩
  rw [hp.depth, ← noted_run p opcode]
  refine resolved_of_ask ?_ ?_ hs ?_ hc
  · rw [noted_frame]
    exact hp.stack
  · rw [noted_run]
    exact hp.aborted
  · rwa [noted_frame]

end Request

/-- A call or creation that has come as far as to ask the host is resolved by how the frame `next`
that it asks for ends. The level below then holds one payload at most, and a call that goes on has
pushed 1. -/
theorem request_resolved (setup : Setup) (inv : Invocation) {i : Instruction}
    {m m₁ : Machine Nonces} {request : Request} {resolution : Resolution}
    (hm : m.frame.stack.depth ≤ maxStackDepth) (ha : m.world.run.outcome.aborted = false)
    (hs : start setup inv i m = .ok (.ask request resolution) m₁)
    (ht : resolution.Fits m.frame.memory.limit) :
    let act := execute setup
      (host setup (setup.settings.maxCallDepth - m.world.run.level)) inv i
    i.Asks request resolution ∧ ∃ next w, child setup inv request m₁.world = .ok next w ∧
      Resolved i.requestArity next.address m (act m) resolution (frameEnd setup next w) ∧
      ((act.final m).world.run.payloads (m.world.run.level + 1)).length ≤ 1 ∧
      ∀ op target m', resolution = .call op target → act m = .ok .next m' →
        m'.frame.stack.words = 1 :: m.frame.stack.words.drop i.requestArity := by
  intro act
  obtain ⟨hi, hk⟩ := start_ask setup inv hs
  obtain ⟨next, nonces, hc⟩ := child_ok setup inv request m₁.world
  have hr := resolved_of_ask hm ha hs ht hc
  refine ⟨hi, next, _, hc, hr, ?_, ?_⟩
  · rw [payloads, returned_final_execute hs]
    exact (answered_of_asking hk ha hc).length_payloads
  · intro op target m' hres hact
    subst hres
    have hr' : Resolved i.requestArity next.address m (act m) (.call op target) _ := hr
    rw [hact] at hr'
    exact hr'.call_next

def handingSeven : Setup :=
  ⟨{}, {}, (Ledger.empty.setCode ⟨1⟩
    #[0x60, 7, 0x60, 0, 0x53, 0x60, 1, 0x60, 0, 0xf3]).committed⟩

def callingOne : Machine Nonces :=
  ⟨⟨0, ⟨[0, 1, 0, 0, 0, 0, 2, 9]⟩, .empty 64, #[]⟩, freshWorld {}⟩

/-- The output is filled up with a zero, and 1 takes the place of the seven operands. -/
theorem returns_of_handingSeven :
    Returns 7 ⟨0, 2⟩ #[7] callingOne
      (execute handingSeven (host handingSeven 1024)
        ⟨⟨0⟩, .zero, 0, .ofBytes #[0xf1], #[]⟩ (.call .call) callingOne) := by
  have hs : start handingSeven ⟨⟨0⟩, .zero, 0, .ofBytes #[0xf1], #[]⟩ (.call .call) callingOne =
      .ok (.ask (.call ⟨1⟩ 0 #[]) (.call "CALL" ⟨0, 2⟩))
        ((start handingSeven ⟨⟨0⟩, .zero, 0, .ofBytes #[0xf1], #[]⟩ (.call .call)).final
          callingOne) := rfl
  obtain ⟨-, next, w, hc, hr, -⟩ := request_resolved handingSeven _ (by decide) rfl hs (Or.inr rfl)
  have hend : frameEnd handingSeven next w = .completed #[7] := by
    injection hc with hn hw
    subst hn
    subst hw
    decide +kernel
  rw [hend] at hr
  exact hr

end SpeculativeEvm
