import SpeculativeEvm.Proofs.Checked.Interpreter
import SpeculativeEvm.Proofs.CreationNonces
import SpeculativeEvm.Proofs.Nesting.Level

/-! Runs of nested frames from operations that have domains. No run leaves them, at any depth: each
operation is guarded where it stands, or by what the operations before it have established. What is
left to assume is that byte strings fit in memory and that levels and nonces can be counted. -/

namespace SpeculativeEvm

open Nesting

namespace Checked

def takeNonce (setup : Setup) (a : Address) : Checked (World Nonces) UInt64 := fun w => do
  let nonce := nextNonce setup w.host a
  let next ← add nonce.toNat 1
  return .ok nonce ⟨w.run, w.host.insert a (UInt64.ofNat next), w.journal⟩

def createdAddress (preimage : Bytes) : Option Address := addressOf (Keccak.hash preimage).bytes

/-- The frame a request asks for, its code analyzed. -/
def child (setup : Setup) (inv : Invocation) : Request → Checked (World Nonces) Invocation
  | .call target value input => do
    let code ← codeOf (setup.committed.code target)
    return ⟨target, inv.address, value, code, input⟩
  | .callCode target value input => do
    let code ← codeOf (setup.committed.code target)
    return ⟨inv.address, inv.address, value, code, input⟩
  | .delegateCall target input => do
    let code ← codeOf (setup.committed.code target)
    return ⟨inv.address, inv.caller, inv.value, code, input⟩
  | .staticCall target input => do
    let code ← codeOf (setup.committed.code target)
    return ⟨target, inv.address, 0, code, input⟩
  | .create value init => do
    let nonce ← takeNonce setup inv.address
    let a ← createdAddress (Creation.preimage inv.address nonce)
    let code ← codeOf init
    return ⟨a, inv.address, value, code, #[]⟩
  | .saltedCreate value salt init => do
    let a ← createdAddress (Creation.saltedPreimage inv.address salt (Keccak.hash init))
    let code ← codeOf init
    return ⟨a, inv.address, value, code, #[]⟩

def descend (w : World Nonces) : Option (World Nonces) := do
  let level ← add w.run.level 1
  return { w with run := { w.run with level } }

def ascend (w : World Nonces) : Option (World Nonces) := do
  let level ← sub w.run.level 1
  return { w with run := { w.run with level } }

/-- Runs a frame one level down; tells whether it ran to completion. -/
def enter (setup : Setup) (host : Host Nonces) (inv : Invocation) : Checked (World Nonces) Bool :=
  fun w => do
    match ← run setup host inv ⟨.fresh setup.settings.maxMemory, ← descend w⟩ with
    | .ok _ m => return .ok true (← ascend m.world)
    | .error fault m =>
      let w ← ascend m.world
      if fault.isFatal then return .error fault w
      let level ← add w.run.level 1
      return .ok false { w with journal := w.journal.note (.childFailed inv.address level fault) }

def recordCreated (a : Address) : Checked (World Nonces) Unit := fun w => do
  let level ← add w.run.level 1
  return .ok () { w with run := w.run.setCreated level a }

def serve (setup : Setup) (descend : Invocation → Checked (World Nonces) Bool) : Host Nonces :=
  fun inv request => do
    let next ← child setup inv request
    let completed ← descend next
    if completed && request.isCreation then recordCreated next.address

def host (setup : Setup) : (depth : Nat) → Host Nonces
  | 0 => serve setup fun _ => lift refuse
  | depth + 1 => serve setup (enter setup (host setup depth))

/-- Analyzes the code of a frame and runs the frame at the run's level. -/
def runFrame (setup : Setup) (inv : Invocation) : Checked (Machine Nonces) Bytes := do
  let code ← codeOf inv.code.bytes
  let level ← lift <| Machine.readRun (·.level)
  run setup (host setup (setup.settings.maxCallDepth - level)) { inv with code }

end Checked

def Request.bytes : Request → Bytes
  | call _ _ input | callCode _ _ input | delegateCall _ input | staticCall _ input => input
  | create _ init | saltedCreate _ _ init => init

/-- What a run takes from its surroundings at a point: memory for the bytes that go with a request,
and levels and nonces that can be counted one further. -/
structure Point.Feasible (setup : Setup) (p : Point) : Prop where
  level (opcode : UInt8) : p.opcode? = some opcode → (Instruction.decode opcode).asksBelow = true →
    p.run.level + 1 < addressSpace
  bytes (request : Request) (w : World Nonces) : p.asked? setup = some (request, w) →
    request.bytes.Allocatable
  nonce (c : Creating) : p.creating? setup = some c → c.nonce.toNat + 1 < addressSpace

instance (setup : Setup) (p : Point) : Decidable (p.Feasible setup) :=
  decidable_of_iff
    ((∀ instruction ∈ p.opcode?.map Instruction.decode, instruction.asksBelow = true →
        p.run.level + 1 < addressSpace) ∧
      (∀ asked ∈ p.asked? setup, asked.1.bytes.Allocatable) ∧
      ∀ c ∈ p.creating? setup, c.nonce.toNat + 1 < addressSpace)
    ⟨fun ⟨hl, hb, hn⟩ => ⟨fun _ hop => hl _ (Option.mem_map.2 ⟨_, hop, rfl⟩),
        fun request w => hb (request, w), hn⟩,
      fun h => ⟨Option.forall_mem_map.2 h.level, fun asked => h.bytes asked.1 asked.2, h.nonce⟩⟩

theorem Code.ofBytes_bytes (c : Code) : Code.ofBytes c.bytes = c := by
  obtain ⟨bytes, marks, rfl⟩ := c
  rfl

namespace Checked

variable {setup : Setup} {inv : Invocation} {w : World Nonces}

theorem createdAddress_eq (preimage : Bytes) :
    createdAddress preimage = some (Creation.addressOf preimage) :=
  addressOf_toBytes (Keccak.hash preimage).toWord

theorem takeNonce_eq {a : Address} (h : (nextNonce setup w.host a).toNat + 1 < addressSpace) :
    takeNonce setup a w = some (Nesting.takeNonce setup a w) := by
  have hnext : UInt64.ofNat ((nextNonce setup w.host a).toNat + 1) =
      nextNonce setup w.host a + 1 := by
    rw [UInt64.ofNat_add, UInt64.ofNat_toNat]
    rfl
  rw [takeNonce, add_eq h, takeNonce_apply, ← hnext]
  rfl

/-- The frame a request asks for, if its nonce can be counted and its code fits in memory. -/
theorem child_eq {request : Request} (hc : ∀ a, (setup.committed.code a).Allocatable)
    (hb : request.bytes.Allocatable)
    (hn : ∀ value init, request = .create value init →
      (nextNonce setup w.host inv.address).toNat + 1 < addressSpace) :
    child setup inv request w = some (Nesting.child setup inv request w) := by
  cases request with
  | call target | callCode target | delegateCall target | staticCall target =>
    have hcode := codeOf_eq (hc target).room
    rw [child, hcode]
    rfl
  | create value init =>
    have hcode : codeOf init = some (.ofBytes init) := codeOf_eq hb.room
    have htake := takeNonce_eq (hn value init rfl)
    rw [child, bind_of_ok (htake.trans rfl), createdAddress_eq, hcode]
    rfl
  | saltedCreate value salt init =>
    have hcode : codeOf init = some (.ofBytes init) := codeOf_eq hb.room
    rw [child, createdAddress_eq, hcode]
    rfl

theorem run_eq {checked : Host Nonces} {host : SpeculativeEvm.Host Nonces} {m : Machine Nonces}
    (h : runFrom setup checked inv 0 ⟨{ m.frame with pc := 0 }, m.world⟩ = some
      (Interpreter.runFor setup host inv setup.settings.maxSteps
        ⟨{ m.frame with pc := 0 }, m.world⟩)) :
    run setup checked inv m = some (Interpreter.run setup host inv m) := by
  have hset : lift (Machine.setPc 0) m = some (.ok () ⟨{ m.frame with pc := 0 }, m.world⟩) := rfl
  rw [run, bind_of_ok hset, Interpreter.run_apply]
  rcases hr : Interpreter.runFor setup host inv setup.settings.maxSteps
    ⟨{ m.frame with pc := 0 }, m.world⟩ with ⟨u, m'⟩ | ⟨e, m'⟩
  · rw [hr] at h
    rw [bind_of_ok h]
    rfl
  · rw [hr] at h
    rw [bind_of_error h]

theorem ascend_eq {w' : World Nonces} (h : w'.run.level = w.run.level + 1) :
    ascend w' = some w'.ascend := by
  rw [ascend, sub_eq (by omega)]
  rfl

/-- Stepping down and up again, if the frame ends where it starts. -/
theorem enter_eq {checked : Host Nonces} {host : SpeculativeEvm.Host Nonces}
    (hl : w.run.level + 1 < addressSpace)
    (hrun : run setup checked inv (entry setup w) =
      some (Interpreter.run setup host inv (entry setup w)))
    (hback : ((Interpreter.run setup host inv).final (entry setup w)).world.run.level =
      w.run.level + 1) :
    enter setup checked inv w = some (Nesting.enter setup host inv w) := by
  have hdown : descend w = some w.descend := by
    rw [descend, add_eq hl]
    rfl
  have hentry : Machine.mk (.fresh setup.settings.maxMemory) w.descend = entry setup w := rfl
  rw [enter, hdown, enter_apply]
  simp only [Option.bind_eq_bind, Option.bind_some]
  rw [hentry, hrun]
  rcases hr : Interpreter.run setup host inv (entry setup w) with ⟨output, m⟩ | ⟨e, m⟩
  · rw [Action.final_of_ok hr] at hback
    simp only [Option.bind_some, ascend_eq hback]
    rfl
  · rw [Action.final_of_error hr] at hback
    have hup : m.world.ascend.run.level + 1 < addressSpace := by
      show m.world.run.level - 1 + 1 < addressSpace
      omega
    simp only [Option.bind_some, ascend_eq hback]
    cases e.isFatal with
    | true => rfl
    | false =>
      rw [add_eq hup]
      rfl

theorem serve_eq {checked : Invocation → Checked (World Nonces) Bool}
    {below : Invocation → Action (World Nonces) Bool} {request : Request} {next : Invocation}
    {w' : World Nonces} (hchild : child setup inv request w = some (.ok next w'))
    (hc : Nesting.child setup inv request w = .ok next w')
    (hbelow : checked next w' = some (below next w'))
    (hlevel : ((below next).final w').run.level + 1 < addressSpace) :
    serve setup checked inv request w = some (Nesting.serve setup below inv request w) := by
  rw [serve, bind_of_ok hchild, serve_apply hc]
  rcases hd : below next w' with ⟨completed, v⟩ | ⟨e, v⟩
  · rw [hd] at hbelow
    rw [Action.final_of_ok hd] at hlevel
    rw [bind_of_ok hbelow]
    by_cases hb : (completed && request.isCreation) = true
    · rw [if_pos hb, recordCreated, add_eq hlevel]
      simp only [if_pos hb]
      rfl
    · rw [if_neg hb]
      simp only [if_neg hb]
      rfl
  · rw [hd] at hbelow
    rw [bind_of_error hbelow]

/-- The limits of a setup are 64-bit quantities, memory may grow by a word past its limit, and all
code fits in memory. -/
structure Bounded (setup : Setup) : Prop where
  memory : setup.settings.maxMemory + 32 ≤ addressSpace
  steps : setup.settings.maxSteps < addressSpace
  committed (a : Address) : (setup.committed.code a).Allocatable

variable {p : Point}

theorem Bounded.allocated (h : Bounded setup) {inv' : Invocation} {request : Request}
    {w' : World Nonces} (hb : request.bytes.Allocatable)
    (hc : Nesting.child setup inv request w = .ok inv' w') :
    Allocated setup inv' := by
  cases request with
  | call target value input | callCode target value input | delegateCall target input
  | staticCall target input =>
    cases hc
    exact ⟨h.committed target, hb, h.committed⟩
  | create value init | saltedCreate value salt init =>
    cases hc
    exact ⟨hb, Bytes.Allocatable.empty, h.committed⟩

/-- What follows an instruction that asks: the host answers as it does on the machine. -/
theorem host_eq (hs : Bounded setup) {opcode : UInt8} (hop : p.opcode? = some opcode)
    (hf : p.Feasible setup)
    (hbelow : ∀ q, p.entered? setup = some q → Allocated setup q.inv →
      Spacious q.machine.frame.memory →
      runFrom setup (host setup q.depth) q.inv (setup.settings.maxSteps - q.budget) q.machine =
        some (q.result setup))
    {request : Request} {resolution : Resolution} {m : Machine Nonces}
    (hask : Execute.start setup p.inv (Instruction.decode opcode) (p.noted opcode) =
      .ok (.ask request resolution) m) :
    host setup p.depth p.inv request m.world =
      some (Nesting.host setup p.depth p.inv request m.world) := by
  have hasked : p.asked? setup = some (request, m.world) := by
    rw [Point.asked?, hop, Option.bind_some, hask]
  have hr := Speculation.notAbove_respected setup
  have hasks := (Execute.start_ask setup p.inv hask).1.asksBelow
  have hlevel : m.world.run.level = p.run.level := by
    have hm := (hr.start p.inv (Instruction.decode opcode) (p.noted opcode)).level
    rwa [Action.final_of_ok hask, Point.noted_run] at hm
  have hspace : m.world.run.level + 1 < addressSpace := hlevel ▸ hf.level opcode hop hasks
  have hb := hf.bytes request m.world hasked
  have hchild : child setup p.inv request m.world =
      some (Nesting.child setup p.inv request m.world) := by
    refine child_eq hs.committed hb fun value init he => ?_
    subst he
    have := hf.nonce _ (Point.creating?_of_create hasked)
    rwa [Point.host_of_asked hasked]
  obtain ⟨next, nonces, hc⟩ := child_ok setup p.inv request m.world
  rw [hc] at hchild
  have hallocated := hs.allocated hb hc
  cases hd : p.depth with
  | zero =>
    refine serve_eq hchild hc rfl ?_
    rw [Action.final_of_ok (refuse_apply _)]
    exact hspace
  | succ depth =>
    have hentered : p.entered? setup = some ⟨depth, setup.settings.maxSteps, next,
        entry setup ⟨m.world.run, nonces, m.world.journal⟩⟩ := by
      rw [Point.entered?, hop, Option.bind_some, hask]
      simp only [hd, hc]
    have hloop := hbelow _ hentered hallocated hs.memory
    have hrun : run setup (host setup depth) next
          (entry setup ⟨m.world.run, nonces, m.world.journal⟩) =
        some (Interpreter.run setup (Nesting.host setup depth) next
          (entry setup ⟨m.world.run, nonces, m.world.journal⟩)) := by
      refine run_eq ?_
      rw [Nat.sub_self] at hloop
      exact hloop
    refine serve_eq hchild hc (enter_eq hspace hrun ?_) ?_
    · exact (hr.run (hr.host depth) next _).level
    · have hl := (hr.enter (hr.host depth) next ⟨m.world.run, nonces, m.world.journal⟩).level
      rw [hl]
      exact hspace

/-- The loop stays in the domains from every point on, with all that runs below it. -/
theorem runFrom_eq (hs : Bounded setup) (p : Point) (hp : p.budget ≤ setup.settings.maxSteps)
    (hf : ∀ q, .starts q ∈ p.course setup → q.Feasible setup) (ha : Allocated setup p.inv)
    (hm : Spacious p.machine.frame.memory) :
    runFrom setup (host setup p.depth) p.inv (setup.settings.maxSteps - p.budget) p.machine =
      some (p.result setup) := by
  -- a turn rests on two later points: the frame its request enters, through the host, and the
  -- next turn of its own frame
  induction p using Point.induct setup with
  | ended p hop =>
    unfold Point.opcode? at hop
    cases hc : p.inv.code.bytes[p.machine.frame.pc]? with
    | none =>
      rw [runFrom_of_ended (Array.getElem?_eq_none_iff.1 hc), Point.result,
        Interpreter.runFor_of_ended setup _ _ hc]
    | some opcode =>
      have hpc := (Array.getElem?_eq_some_iff.1 hc).1
      cases hb : p.budget with
      | zero =>
        rw [Nat.sub_zero, runFrom_of_limit hpc (Nat.le_refl _), Point.result, hb,
          Interpreter.runFor, Interpreter.fetch_bind, hc]
        rfl
      | succ budget =>
        rw [hb, hc] at hop
        cases hop
  | turn p opcode hop ihe ihn =>
    obtain ⟨⟨budget, hb⟩, hc⟩ := Point.opcode?_eq_some_iff.1 hop
    have hpc := (Array.getElem?_eq_some_iff.1 hc).1
    rw [Point.course_of_some hop] at hf
    have hfp := hf p List.mem_cons_self
    have hroom : Roomy (Instruction.decode opcode).asksBelow (p.noted opcode) := by
      refine ⟨?_, fun hasks => ?_⟩
      · rwa [Point.noted_frame]
      · rw [Point.noted_run]
        exact hfp.level opcode hop hasks
    have hnote := Machine.note_apply p.machine fun m => .step m.frame.pc opcode m.frame.stack.depth
    have hnoted : p.noted opcode = _ := Action.final_of_ok hnote
    rw [← hnoted] at hnote
    have hturn : advance setup (host setup p.depth) p.inv opcode p.machine = some
          (Interpreter.advance setup (Nesting.host setup p.depth) p.inv opcode p.machine) ∧
        Roomy false ((Interpreter.advance setup (Nesting.host setup p.depth) p.inv opcode).final
          p.machine) := by
      refine Agrees.advance ha hnote hroom (by rwa [Point.noted_frame])
        fun request resolution m hask => ⟨host_eq hs hop hfp (fun q hq haq hmq => ?_) hask, ?_⟩
      · refine ihe q hq (Nat.le_of_eq (Point.depth_of_entered hq).2) (fun r hr => hf r ?_) haq hmq
        rw [hq]
        simp [hr]
      · exact ((Speculation.notAbove_respected setup).host p.depth p.inv request m.world).level
    obtain ⟨hrun, hleft⟩ := hturn
    rw [runFrom_of_opcode hc (by omega) hs.steps]
    rcases hadvance : Interpreter.advance setup (Nesting.host setup p.depth) p.inv opcode
      p.machine with ⟨goesOn, m⟩ | ⟨e, m⟩
    · rw [hadvance] at hrun
      rw [Action.final_of_ok hadvance] at hleft
      rw [bind_of_ok hrun]
      cases goesOn with
      | true =>
        have hnext : p.next? setup = some ⟨p.depth, p.budget - 1, p.inv, m⟩ := by
          rw [Point.next?_of_opcode hop, hadvance]
        rw [Point.result_of_next hnext]
        have hq := ihn _ hnext (Nat.le_trans (Nat.sub_le _ 1) hp) (fun r hr => hf r ?_) ha
          hleft.memory
        · have hsteps : setup.settings.maxSteps - p.budget + 1 =
              setup.settings.maxSteps - (p.budget - 1) := by omega
          rw [hsteps]
          exact hq
        · rw [hnext]
          simp [hr]
      | false =>
        have hnext : p.next? setup = none := by
          rw [Point.next?_of_opcode hop, hadvance]
        rw [Point.result_of_not_next hop hnext, hadvance]
        rfl
    · rw [hadvance] at hrun
      have hnext : p.next? setup = none := by
        rw [Point.next?_of_opcode hop, hadvance]
      rw [bind_of_error hrun, Point.result_of_not_next hop hnext, hadvance]

/-- No run leaves the domains of its operations, at any depth: with a memory limit of a word less
than the address space, code and input that fit in memory, and levels, nonces and the bytes of
requests that do not reach its end, the checked run comes to what the machine comes to. -/
theorem runFrame_eq_execute (setup : Setup) (inv : Invocation) (m : Machine Nonces)
    (hmemory : setup.settings.maxMemory ≤ addressSpace - 32)
    (hlimit : m.frame.memory.limit ≤ addressSpace - 32)
    (hsteps : setup.settings.maxSteps < addressSpace)
    (hcommitted : ∀ a, (setup.committed.code a).Allocatable)
    (hcode : inv.code.bytes.Allocatable) (hinput : inv.input.Allocatable)
    (hf : ∀ p, .starts p ∈ (Point.start setup inv m).course setup → p.Feasible setup) :
    runFrame setup inv m = some (Nesting.execute setup inv m) := by
  have hword : 32 ≤ addressSpace := by decide
  have hs : Bounded setup := ⟨by omega, hsteps, hcommitted⟩
  have hspace : m.frame.memory.limit + 32 ≤ addressSpace := by omega
  have hloop := runFrom_eq hs (Point.start setup inv m) (Nat.le_refl _) hf
    ⟨hcode, hinput, hcommitted⟩ hspace
  have hbudget : (Point.start setup inv m).budget = setup.settings.maxSteps := rfl
  rw [hbudget, Nat.sub_self] at hloop
  have hanalyzed : codeOf inv.code.bytes = some inv.code := by
    rw [codeOf_eq hcode.room, Code.ofBytes_bytes]
  have hlevel : lift (Machine.readRun (·.level)) m = some (.ok m.world.run.level m) := rfl
  rw [runFrame, hanalyzed, Nesting.execute, Machine.readRun_bind]
  show (lift (Machine.readRun (·.level)) >>= fun level =>
    run setup (host setup (setup.settings.maxCallDepth - level)) inv) m = _
  rw [bind_of_ok hlevel]
  exact run_eq hloop

def dividing : Setup :=
  ⟨{ maxCallDepth := 2 }, {}, { Ledger.empty.committed with
    code := fun a =>
      if a = ⟨2⟩ then #[0x5f, 0x60, 7, 0x05, 0x5f, 0x52, 0x60, 32, 0x5f, 0xf3] else #[] }⟩

def callingDivision : Invocation :=
  ⟨⟨1⟩, .zero, 0, .ofBytes
    #[0x60, 32, 0x5f, 0x5f, 0x5f, 0x5f, 0x60, 2, 0x5f, 0xf1, 0x5f, 0x5f, 0x5f, 0xf0], #[]⟩

/-- The call of the account that divides by zero and the creation after it stay in all domains. -/
theorem callingDivision_runs :
    let m : Machine Nonces := ⟨.fresh 64, freshWorld {}⟩
    runFrame dividing callingDivision m = some (Nesting.execute dividing callingDivision m) ∧
      ((Nesting.execute dividing callingDivision).final m).world.run.outcome.aborted = false := by
  intro m
  have hcommitted (a : Address) : (dividing.committed.code a).Allocatable := by
    show (if a = ⟨2⟩ then _ else _ : Bytes).Allocatable
    split <;> decide
  have hfeasible : ∀ x ∈ (Point.start dividing callingDivision m).course dividing,
      ∀ p ∈ x.started?, p.Feasible dividing := by
    decide +kernel
  exact ⟨runFrame_eq_execute dividing callingDivision m (by decide) (by decide) (by decide)
    hcommitted (by decide) (by decide) fun p hp => hfeasible _ hp p rfl, by decide +kernel⟩

end Checked

end SpeculativeEvm
