import Mathlib.Data.List.Nodup
import Mathlib.Data.Set.Insert
import SpeculativeEvm.Proofs.Nesting.Resolution

/-! How calls are resolved, whatever host answers them. A host may record payloads at any level, in
any order and more than once. All that counts is which payloads it has recorded one level below the
call: the level is cleared before the host is asked, and each payload is kept once, so exactly one
payload is left there if and only if the host has recorded just that one. -/

namespace SpeculativeEvm

open Execute Machine

namespace Speculation

variable {s : Speculation} {level other : Nat} {payload p : Bytes}

def addPayloads (s : Speculation) (additions : List (Nat × Bytes)) : Speculation :=
  additions.foldl (fun s a => s.addPayload a.1 a.2) s

theorem mem_payloads_addPayload :
    p ∈ (s.addPayload level payload).payloads other ↔
      p ∈ s.payloads other ∨ (other, p) = (level, payload) := by
  by_cases h : payload ∈ s.payloads level
  · rw [addPayload_of_mem h]
    refine ⟨Or.inl, ?_⟩
    rintro (hp | hp)
    · exact hp
    · cases hp
      exact h
  · rw [payloads_addPayload_of_notMem h]
    by_cases hl : level = other
    · subst hl
      simp
    · simp [hl, Ne.symm hl]

theorem nodup_payloads_addPayload (hs : (s.payloads other).Nodup) :
    ((s.addPayload level payload).payloads other).Nodup := by
  by_cases h : payload ∈ s.payloads level
  · rwa [addPayload_of_mem h]
  · rw [payloads_addPayload_of_notMem h]
    by_cases hl : level = other
    · subst hl
      rw [if_pos rfl]
      exact hs.append (List.nodup_singleton payload) (by simpa using h)
    · rwa [if_neg hl]

theorem mem_payloads_addPayloads (additions : List (Nat × Bytes)) :
    p ∈ (s.addPayloads additions).payloads level ↔
      p ∈ s.payloads level ∨ (level, p) ∈ additions := by
  induction additions generalizing s with
  | nil => simp [addPayloads]
  | cons a additions ih =>
    have hstep : s.addPayloads (a :: additions) =
        (s.addPayload a.1 a.2).addPayloads additions := rfl
    rw [hstep, ih, mem_payloads_addPayload, List.mem_cons, or_assoc]

theorem nodup_payloads_addPayloads (hs : (s.payloads level).Nodup)
    (additions : List (Nat × Bytes)) : ((s.addPayloads additions).payloads level).Nodup := by
  induction additions generalizing s with
  | nil => exact hs
  | cons a additions ih => exact ih (nodup_payloads_addPayload hs)

/-- What is left at a level that was empty is one payload exactly if that one has been added. -/
theorem payloads_addPayloads_eq_singleton_iff (hs : s.payloads level = [])
    (additions : List (Nat × Bytes)) :
    (s.addPayloads additions).payloads level = [p] ↔ {q | (level, q) ∈ additions} = {p} := by
  have hmem (q : Bytes) :
      q ∈ (s.addPayloads additions).payloads level ↔ (level, q) ∈ additions := by
    rw [mem_payloads_addPayloads, hs]
    simp
  have hnodup : ((s.addPayloads additions).payloads level).Nodup :=
    nodup_payloads_addPayloads (hs ▸ List.nodup_nil) additions
  constructor
  · intro h
    ext q
    rw [Set.mem_ofPred_eq, ← hmem, h, List.mem_singleton, Set.mem_singleton_iff]
  · intro h
    refine List.perm_singleton.1 ((List.perm_ext_iff_of_nodup hnodup (List.nodup_singleton p)).2 ?_)
    intro q
    rw [hmem, List.mem_singleton, ← Set.mem_singleton_iff, ← h, Set.mem_ofPred_eq]

end Speculation

def Span.Fits (limit : Nat) (span : Span) : Prop :=
  span.size = 0 ∨ span.offset + span.size < addressSpace ∧ span.offset + span.size ≤ limit

/-- The operands of a call; only some kinds have a value. -/
structure CallOperands where
  gas : Word
  callee : Word
  value : Word
  inOffset : Word
  inSize : Word
  outOffset : Word
  outSize : Word

/-- The operands as they lie on the stack, the top one first. -/
def CallOperands.words (o : CallOperands) (kind : CallKind) : List Word :=
  if kind.hasValue then [o.gas, o.callee, o.value, o.inOffset, o.inSize, o.outOffset, o.outSize]
  else [o.gas, o.callee, o.inOffset, o.inSize, o.outOffset, o.outSize]

/-- What a call asks of the host: its target is in the low 20 bytes of the callee's word. -/
def CallOperands.request (o : CallOperands) (input : Bytes) : CallKind → Request
  | .call => .call (.ofWord o.callee) o.value input
  | .callCode => .callCode (.ofWord o.callee) o.value input
  | .delegateCall => .delegateCall (.ofWord o.callee) input
  | .staticCall => .staticCall (.ofWord o.callee) input

variable {σ : Type}

structure Machine.Calls (m : Machine σ) (kind : CallKind) (o : CallOperands) (input output : Span) :
    Prop where
  depth : m.frame.stack.depth ≤ maxStackDepth
  words : o.words kind <+: m.frame.stack.words
  hasInput : spanOf o.inOffset o.inSize = .ok input
  hasOutput : spanOf o.outOffset o.outSize = .ok output
  readable : Span.Fits m.frame.memory.limit input
  writable : Span.Fits m.frame.memory.limit output

/-- The world in which a call asks the host: the level below is empty. -/
def Machine.dispatched (m : Machine σ) (kind : CallKind) (target : Address) : World σ :=
  ⟨m.world.run.clearBelow, m.world.host,
    m.world.journal.note (.dispatching kind.mnemonic target m.world.run.level)⟩

structure Host.Adds (host : Host σ) (inv : Invocation) (request : Request) (before after : World σ)
    (additions : List (Nat × Bytes)) : Prop where
  answer : host inv request before = .ok () after
  returned : after.run.returned = (before.run.addPayloads additions).returned
  level : after.run.level = before.run.level
  aborted : after.run.outcome.aborted = false

theorem Memory.get_of_fits {m : Memory} {span : Span} (h : span.Fits m.limit) :
    get span.offset span.size m = .ok (m.data.window span.offset span.size) m := by
  unfold get
  by_cases hz : span.size = 0
  · rw [if_pos hz, hz]
    rfl
  · rw [if_neg hz, (refusal_eq_none_iff _ _ _).2 (h.resolve_left hz)]

theorem call_asks {kind : CallKind} {o : CallOperands} {input output : Span} {m : Machine σ}
    (h : m.Calls kind o input output) :
    call kind m = .ok
      (.ask (o.request (m.frame.memory.data.window input.offset input.size) kind)
        (.call kind.mnemonic output))
      ⟨{ m.frame with stack := ⟨m.frame.stack.words.drop kind.arity⟩ },
        m.dispatched kind (.ofWord o.callee)⟩ := by
  obtain ⟨rest, hrest⟩ := h.words
  have hask (request : Bytes → Request) (m' : Machine σ) (hm' : m'.frame.memory = m.frame.memory) :
      askCall kind (.ofWord o.callee) (spanOf o.inOffset o.inSize) (spanOf o.outOffset o.outSize)
        request m' = .ok (.ask (request (m.frame.memory.data.window input.offset input.size))
          (.call kind.mnemonic output)) ⟨m'.frame, m'.dispatched kind (.ofWord o.callee)⟩ := by
    rw [askCall, h.hasInput, h.hasOutput]
    simp only [check_bind, beginRequest_bind, onMemory_bind, hm', Memory.get_of_fits h.readable]
    rw [← hm']
    rfl
  have hstack : m.frame.stack = ⟨o.words kind ++ rest⟩ := by rw [hrest]
  have hdrop : m.frame.stack.words.drop kind.arity = rest := by
    rw [hstack]
    cases kind <;> rfl
  rw [hdrop]
  cases kind with
  | call | callCode =>
    have hpop : onStack (Stack.popN 7) m = .ok
        ⟨#[o.gas, o.callee, o.value, o.inOffset, o.inSize, o.outOffset, o.outSize], rfl⟩
        ⟨{ m.frame with stack := ⟨rest⟩ }, m.world⟩ := by
      rw [onStack_apply, hstack]
      rfl
    exact (Action.bind_of_ok hpop).trans (hask _ _ rfl)
  | delegateCall | staticCall =>
    have hpop : onStack (Stack.popN 6) m = .ok
        ⟨#[o.gas, o.callee, o.inOffset, o.inSize, o.outOffset, o.outSize], rfl⟩
        ⟨{ m.frame with stack := ⟨rest⟩ }, m.world⟩ := by
      rw [onStack_apply, hstack]
      rfl
    exact (Action.bind_of_ok hpop).trans (hask _ _ rfl)

/-- The payloads that are added one level below a frame of `m`. -/
def addedBelow (m : Machine σ) (additions : List (Nat × Bytes)) : Set Bytes :=
  {p | (m.world.run.level + 1, p) ∈ additions}

/-- What a call leaves of the frame, how it goes on, and whether the run has aborted. -/
def outcomeOf : EStateM.Result Fault (Machine σ) Control → Option (Control × Frame × Bool)
  | .ok control m => some (control, m.frame, m.world.run.outcome.aborted)
  | .error .. => none

section Resolve

variable (setup : Setup) {host : Host σ} {inv : Invocation} {kind : CallKind} {o : CallOperands}
  {input output : Span} {m : Machine σ} {w : World σ} {additions : List (Nat × Bytes)} {p : Bytes}
  (hc : m.Calls kind o input output)
  (ha : host.Adds inv (o.request (m.frame.memory.data.window input.offset input.size) kind)
    (m.dispatched kind (.ofWord o.callee)) w additions)

include ha in
theorem payloads_eq_singleton_iff :
    w.run.payloads (w.run.level + 1) = [p] ↔ addedBelow m additions = {p} := by
  have hlevel : w.run.level = m.world.run.level := ha.level
  have hnone : m.world.run.clearBelow.payloads (m.world.run.level + 1) = [] := by
    rw [Speculation.payloads_clearBelow, if_pos rfl]
  rw [hlevel, Speculation.payloads, ha.returned]
  exact Speculation.payloads_addPayloads_eq_singleton_iff hnone additions

include hc ha

theorem execute_call : SpeculativeEvm.execute setup host inv (.call kind) m =
    resolveCall kind.mnemonic output
      ⟨{ m.frame with stack := ⟨m.frame.stack.words.drop kind.arity⟩ }, w⟩ := by
  have hs : start setup inv (.call kind) m = _ := call_asks hc
  rw [SpeculativeEvm.execute, Action.bind_of_ok hs]
  simp only [onWorld_bind, ha.answer]
  exact resolve_of_not_aborted ha.aborted _

theorem execute_call_of_singleton (hp : addedBelow m additions = {p}) :
    ∃ memory journal, Memory.set output.offset output.size p m.frame.memory = .ok () memory ∧
      SpeculativeEvm.execute setup host inv (.call kind) m = .ok .next
        ⟨{ m.frame with stack := ⟨1 :: m.frame.stack.words.drop kind.arity⟩, memory },
          ⟨w.run, w.host, journal⟩⟩ := by
  have hpayloads := (payloads_eq_singleton_iff ha).2 hp
  have hfits : output.size = 0 ∨
      Memory.refusal m.frame.memory.limit output.offset output.size = none :=
    hc.writable.imp_right (Memory.refusal_eq_none_iff _ _ _).2
  have hroom : (m.frame.stack.words.drop kind.arity).length < maxStackDepth := by
    have hdepth : m.frame.stack.words.length ≤ 1024 := hc.depth
    have harity : 0 < kind.arity := by cases kind <;> decide
    rw [List.length_drop, maxStackDepth]
    omega
  obtain ⟨memory, hset⟩ := m.frame.memory.set_ok hfits p
  obtain ⟨journal, he⟩ := resolveCall_next
    (m := ⟨{ m.frame with stack := ⟨m.frame.stack.words.drop kind.arity⟩ }, w⟩)
    kind.mnemonic hpayloads hset hroom
  exact ⟨memory, journal, hset, (execute_call setup hc ha).trans he⟩

theorem execute_call_of_ne_singleton (hp : ∀ p, addedBelow m additions ≠ {p}) :
    ∃ journal, SpeculativeEvm.execute setup host inv (.call kind) m = .ok .halt
      ⟨{ m.frame with stack := ⟨m.frame.stack.words.drop kind.arity⟩ },
        ⟨w.run.abort, w.host, journal⟩⟩ := by
  rw [execute_call setup hc ha]
  exact resolveCall_of_ne_singleton kind.mnemonic output fun p h =>
    hp p ((payloads_eq_singleton_iff ha).1 h)

/-- Frames that are alike go on alike, whatever their hosts do, if the same payloads are added. -/
theorem outcome_of_same_added {τ : Type} {host' : Host τ} {inv' : Invocation} {m' : Machine τ}
    {w' : World τ} {additions' : List (Nat × Bytes)} (hframe : m'.frame = m.frame)
    (ha' : host'.Adds inv' (o.request (m.frame.memory.data.window input.offset input.size) kind)
      (m'.dispatched kind (.ofWord o.callee)) w' additions')
    (hsame : addedBelow m' additions' = addedBelow m additions) :
    outcomeOf (SpeculativeEvm.execute setup host' inv' (.call kind) m') =
      outcomeOf (SpeculativeEvm.execute setup host inv (.call kind) m) := by
  have hc' : m'.Calls kind o input output := by
    refine ⟨?_, ?_, hc.hasInput, hc.hasOutput, ?_, ?_⟩ <;> rw [hframe]
    exacts [hc.depth, hc.words, hc.readable, hc.writable]
  rw [← hframe] at ha'
  by_cases hp : ∃ p, addedBelow m additions = {p}
  · obtain ⟨p, hp⟩ := hp
    obtain ⟨memory, journal, hset, hr⟩ := execute_call_of_singleton setup hc ha hp
    obtain ⟨memory', journal', hset', hr'⟩ :=
      execute_call_of_singleton setup hc' ha' (hsame.trans hp)
    -- what is written is decided by the frame's memory and the payload
    rw [hframe, hset] at hset'
    cases hset'
    rw [hr, hr', hframe]
    simp only [outcomeOf, ha.aborted, ha'.aborted]
  · have hne := not_exists.1 hp
    obtain ⟨journal, hr⟩ := execute_call_of_ne_singleton setup hc ha hne
    obtain ⟨journal', hr'⟩ :=
      execute_call_of_ne_singleton setup hc' ha' fun p h => hne p (hsame.symm.trans h)
    rw [hr, hr', hframe]
    rfl

end Resolve

/-- A call asks the host for its target with the range of memory that is its input, and goes on only
if the host has added exactly one payload below; the run aborts if it has added none or several. In
what order they were added, how often, and what the level below held before make no difference. -/
theorem call_resolves_by_added_payloads (setup : Setup) {host : Host σ} {inv : Invocation}
    {kind : CallKind} {o : CallOperands} {input output : Span} {m : Machine σ} {w : World σ}
    {additions : List (Nat × Bytes)} (hc : m.Calls kind o input output)
    (ha : host.Adds inv (o.request (m.frame.memory.data.window input.offset input.size) kind)
      (m.dispatched kind (.ofWord o.callee)) w additions) :
    let r := SpeculativeEvm.execute setup host inv (.call kind) m
    (∃ m₁, start setup inv (.call kind) m =
        .ok (.ask (o.request (m.frame.memory.data.window input.offset input.size) kind)
          (.call kind.mnemonic output)) m₁ ∧
      m₁.world = m.dispatched kind (.ofWord o.callee)) ∧
    (∀ p, addedBelow m additions = {p} → Returns kind.arity output p m r) ∧
    ((∀ p, addedBelow m additions ≠ {p}) → GivesUp kind.arity m r ∧
      ∀ control t, r = .ok control t → t.world.run.outcome.succeeded = false) ∧
    ∀ {τ : Type} (host' : Host τ) (inv' : Invocation) (m' : Machine τ) (w' : World τ)
      (additions' : List (Nat × Bytes)), m'.frame = m.frame →
      host'.Adds inv' (o.request (m.frame.memory.data.window input.offset input.size) kind)
        (m'.dispatched kind (.ofWord o.callee)) w' additions' →
      addedBelow m' additions' = addedBelow m additions →
      outcomeOf (SpeculativeEvm.execute setup host' inv' (.call kind) m') = outcomeOf r := by
  intro r
  refine ⟨⟨_, call_asks hc, rfl⟩, fun p hp => ?_, fun hp => ?_, ?_⟩
  · obtain ⟨memory, journal, hset, hr⟩ := execute_call_of_singleton setup hc ha hp
    have hpayloads := (payloads_eq_singleton_iff ha).2 hp
    rw [show w.run.level = m.world.run.level from ha.level] at hpayloads
    exact ⟨_, hr, ha.aborted, hpayloads, rfl, hset, Memory.at0_set _ hset⟩
  · obtain ⟨journal, hr⟩ := execute_call_of_ne_singleton setup hc ha hp
    refine ⟨⟨_, hr, rfl, rfl, rfl⟩, fun control t ht => ?_⟩
    rw [show r = _ from hr] at ht
    cases ht
    rfl
  · intro τ host' inv' m' w' additions' hframe ha' hsame
    exact outcome_of_same_added setup hc ha hframe ha' hsame

def sevenTwice : List (Nat × Bytes) := [(1, #[7]), (4, #[8]), (1, #[7])]

def addingSevenTwice : Host Unit := fun _ _ => World.modifyRun fun run =>
  { run with returned := (run.addPayloads sevenTwice).returned }

def callingPastStale : Machine Unit :=
  ⟨⟨0, ⟨[0, 1, 0, 0, 0, 0, 2, 9]⟩, .empty 64, #[]⟩,
    ⟨({} : Speculation).addPayload 1 #[9], (), {}⟩⟩

/-- The stale payload and the repetition go unnoticed. -/
theorem sevenTwice_returns :
    Returns 7 ⟨0, 2⟩ #[7] callingPastStale
      (SpeculativeEvm.execute ⟨{}, {}, Ledger.empty.committed⟩ addingSevenTwice
        ⟨.zero, .zero, 0, .ofBytes #[], #[]⟩ (.call .call) callingPastStale) := by
  have hc : callingPastStale.Calls .call ⟨0, 1, 0, 0, 0, 0, 2⟩ ⟨0, 0⟩ ⟨0, 2⟩ :=
    ⟨by decide, ⟨[9], rfl⟩, rfl, rfl, .inl rfl, .inr (by decide)⟩
  have ha : addingSevenTwice.Adds ⟨.zero, .zero, 0, .ofBytes #[], #[]⟩ (.call ⟨1⟩ 0 #[])
      (callingPastStale.dispatched .call ⟨1⟩)
      ((addingSevenTwice ⟨.zero, .zero, 0, .ofBytes #[], #[]⟩ (.call ⟨1⟩ 0 #[])).final
        (callingPastStale.dispatched .call ⟨1⟩)) sevenTwice := ⟨rfl, rfl, rfl, rfl⟩
  have hp : addedBelow callingPastStale sevenTwice = {#[7]} := by
    ext p
    show (1, p) ∈ sevenTwice ↔ p = #[7]
    simp [sevenTwice]
  exact (call_resolves_by_added_payloads _ hc ha).2.1 _ hp

end SpeculativeEvm
