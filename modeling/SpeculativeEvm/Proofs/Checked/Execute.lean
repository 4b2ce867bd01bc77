import SpeculativeEvm.Proofs.Checked.Instruction

/-! Instructions that stay in the domains of their operations. They agree with the machine's
instructions wherever the memory has room to grow and there is a level below for those that ask for
a frame there; a push agrees wherever the counter is inside the code. -/

namespace SpeculativeEvm

namespace Checked

variable {σ : Type}

theorem fromBottom_getElem? {s : Stack} {i : Nat} (h : i < s.depth) :
    s.fromBottom[s.depth - 1 - i]? = s.words[i]? := by
  unfold Stack.fromBottom Stack.depth at *
  rw [List.getElem?_reverse (by omega)]
  congr 1
  omega

/-- A place from the bottom is one from the top. -/
theorem set_reverse {α : Type} {l : List α} {i : Nat} (h : i < l.length) (a : α) :
    l.reverse.set (l.length - 1 - i) a = (l.set i a).reverse := by
  refine List.ext_getElem? fun j => ?_
  rw [List.getElem?_set, List.length_reverse]
  by_cases hj : j < l.length
  · rw [List.getElem?_reverse hj, List.getElem?_reverse (by simpa using hj), List.length_set,
      List.getElem?_set]
    by_cases hij : l.length - 1 - i = j
    · rw [if_pos hij, if_pos (by omega), if_pos (by omega), if_pos h]
    · rw [if_neg hij, if_neg (by omega)]
  · rw [if_neg (by omega), List.getElem?_eq_none (by simpa using hj),
      List.getElem?_eq_none (by simpa using hj)]

structure Allocated (setup : Setup) (inv : Invocation) : Prop where
  code : inv.code.bytes.Allocatable
  input : inv.input.Allocatable
  committed : ∀ a, (setup.committed.code a).Allocatable

namespace Agrees

variable {below : Bool}

theorem dup (n : Nat) : Agrees (fun _ => True) (dup n) (Stack.dup n) := by
  intro s _
  refine ⟨?_, trivial⟩
  unfold Checked.dup
  rcases n with - | k
  · rfl
  · by_cases h : s.depth < k + 1
    · have hk : s.words[k]? = none := List.getElem?_eq_none (Nat.le_of_lt_succ h)
      rw [if_pos (.inr h), Stack.dup.eq_def]
      simp only [hk]
    · have hlt : k < s.depth := by omega
      have hk : s.words[k]? = some s.words[k] := List.getElem?_eq_getElem hlt
      have hplace := fromBottom_getElem? hlt
      rw [Nat.sub_sub, Nat.add_comm 1, hk] at hplace
      rw [if_neg (by omega), sub_eq (by omega), Stack.dup.eq_def]
      simp only [hk, hplace, Option.bind_eq_bind, Option.bind_some]
      rfl

theorem swap (n : Nat) : Agrees (fun _ => True) (swap n) (Stack.swap n) := by
  rintro ⟨words⟩ -
  refine ⟨?_, trivial⟩
  unfold Checked.swap
  cases words with
  | nil =>
    rw [if_pos (.inr (Nat.zero_le n))]
    rfl
  | cons top rest =>
    cases n with
    | zero => rfl
    | succ k =>
      by_cases h : rest.length ≤ k
      · have hk : rest[k]? = none := List.getElem?_eq_none h
        rw [if_pos (.inr (Nat.succ_le_succ h)), Stack.swap.eq_def]
        simp only [hk]
      · have hdepth : (Stack.mk (top :: rest)).depth = rest.length + 1 := rfl
        have hlt : k < rest.length := by omega
        have hk : rest[k]? = some rest[k] := List.getElem?_eq_getElem hlt
        have htop : (Stack.mk (top :: rest)).fromBottom[rest.length]? = some top :=
          fromBottom_getElem? (i := 0) (Nat.zero_lt_succ _)
        have hplace : (Stack.mk (top :: rest)).fromBottom[rest.length - (k + 1)]? = rest[k]? :=
          fromBottom_getElem? (i := k + 1) (Nat.succ_lt_succ hlt)
        have hfirst : (Stack.mk (top :: rest)).fromBottom.set rest.length rest[k] =
            (rest[k] :: rest).reverse :=
          set_reverse (l := top :: rest) (Nat.zero_lt_succ _) rest[k]
        have hsecond : (rest[k] :: rest).reverse.set (rest.length - (k + 1)) top =
            (rest[k] :: rest.set k top).reverse :=
          set_reverse (l := rest[k] :: rest) (i := k + 1) (Nat.succ_lt_succ hlt) top
        rw [if_neg (by omega), hdepth, sub_eq (by omega), Stack.swap.eq_def]
        simp only [Option.bind_eq_bind, Option.bind_some, Nat.add_sub_cancel, sub_eq hlt, htop,
          hplace, hk, hfirst, hsecond, List.reverse_reverse]
        rfl

/-! Parts of instructions in which no operation is partial. -/

section Parts

variable {α : Type}

theorem stack (act : Action Stack α) :
    Agrees (Roomy below) (lift (Machine.onStack act : Action (Machine σ) α))
      (Machine.onStack act) := by
  refine .lift fun m hm => ?_
  rw [Machine.final_onStack]
  exact ⟨hm.memory, hm.level⟩

theorem check (r : Except Fault α) :
    Agrees (Roomy below) (lift (Machine.check r : Action (Machine σ) α)) (Machine.check r) := by
  refine .lift fun m hm => ?_
  rwa [Machine.final_check]

theorem note (event : Machine σ → Event) :
    Agrees (Roomy below) (lift (Machine.note event)) (Machine.note event) := by
  refine .lift fun m hm => ?_
  rw [Machine.final_note]
  exact ⟨hm.memory, hm.level⟩

theorem get : Agrees (Roomy below) (lift MonadState.get : Checked (Machine σ) (Machine σ)) get :=
  .lift fun _ hm => hm

theorem readRun (f : Speculation → α) :
    Agrees (Roomy below) (lift (Machine.readRun f : Action (Machine σ) α)) (Machine.readRun f) :=
  .lift fun _ hm => hm

/-- A change of the run that leaves the level alone. -/
theorem run {f : Speculation → Speculation} (hf : ∀ s, (f s).level = s.level) :
    Agrees (Roomy below) (lift (Machine.onRun f : Action (Machine σ) Unit)) (Machine.onRun f) := by
  refine .lift fun m hm => ⟨hm.memory, fun hb => ?_⟩
  show (f m.world.run).level + 1 < addressSpace
  rw [hf]
  exact hm.level hb

theorem output (output : Bytes) :
    Agrees (Roomy below) (lift (Machine.setOutput output : Action (Machine σ) Unit))
      (Machine.setOutput output) :=
  .lift fun _ hm => ⟨hm.memory, hm.level⟩

theorem pushWord (w : Word) :
    Agrees (Roomy below) (lift (Execute.pushWord w : Action (Machine σ) Control))
      (Execute.pushWord w) :=
  .seq (.stack _) fun _ => .lift fun _ hm => hm

theorem drop (n : Nat) :
    Agrees (Roomy below) (lift (Execute.drop n : Action (Machine σ) Unit)) (Execute.drop n) := by
  induction n with
  | zero => exact .lift fun _ hm => hm
  | succ n ih => exact .seq (.mapped _ (.stack _)) fun _ => ih

end Parts

theorem alone {x : Checked (Machine σ) Control} {y : Action (Machine σ) Control}
    (h : Agrees (Roomy below) x y) : Agrees (Roomy below) (alone x) (Execute.alone y) :=
  .bind h fun _ => .pure _

theorem aloneOf {y : Action (Machine σ) Control} (h : Agrees (Roomy below) (lift y) y) :
    Agrees (Roomy below) (lift (Execute.alone y)) (Execute.alone y) :=
  .seq h fun _ => .lift fun _ hm => hm

theorem overTop {f : Word → Option Word} {g : Word → Word} (h : ∀ w, f w = some (g w)) :
    Agrees (Roomy below) (overTop f : Checked (Machine σ) Control) (Execute.unary g) :=
  .bind (.stack _) fun x => .part_bind (h x) (.bind (.stack _) fun _ => .pure _)

theorem overTwo (op : BinaryOp) :
    Agrees (Roomy below) (overTwo op : Checked (Machine σ) Control) (Execute.binary op.apply) :=
  .bind (.stack _) fun x => .bind (.stack _) fun y =>
    .part_bind (binary_eq op x y) (.bind (.stack _) fun _ => .pure _)

theorem overThree (op : TernaryOp) :
    Agrees (Roomy below) (overThree op : Checked (Machine σ) Control) (Execute.ternary op.apply) :=
  .bind (.stack _) fun x => .bind (.stack _) fun y => .bind (.stack _) fun n =>
    .part_bind (ternary_eq op x y n) (.bind (.stack _) fun _ => .pure _)

theorem log {topics : Nat} (h : topics + 2 < addressSpace) :
    Agrees (Roomy below) (log topics : Checked (Machine σ) Control) (Execute.log topics) :=
  .part_bind (add_eq h) (.bind (.drop _) fun _ => .pure _)

theorem quantity (setup : Setup) (inv : Invocation) (q : Quantity) :
    Agrees (Roomy below) (quantity setup inv q : Checked (Machine σ) Control)
      (Execute.quantity setup inv q) :=
  .bind .get fun _ => .part_bind (quantityOf_eq setup inv _ q) (.bind (.check _) fun w =>
    .pushWord w)

theorem account (setup : Setup) (query : AccountQuery) :
    Agrees (Roomy below) (account setup query : Checked (Machine σ) Control)
      (Execute.account setup query) :=
  .bind (.stack _) fun w => .part_bind (addressOf_toBytes w) (.bind .get fun _ =>
    .part_bind (answer_eq setup _ _ query) (.bind (.stack _) fun _ =>
    .bind (.run fun _ => rfl) fun _ => .pure _))

theorem selfDestruct (setup : Setup) (inv : Invocation) :
    Agrees (Roomy below) (selfDestruct setup inv : Checked (Machine σ) Control)
      (Execute.selfDestruct setup inv) :=
  .bind (.stack _) fun w => .part_bind (addressOf_toBytes w) (.bind (.readRun _) fun _ =>
    .bind (.run fun _ => rfl) fun _ => .bind (.run fun _ => rfl) fun _ =>
    .bind (.run fun _ => rfl) fun _ => .bind (.run fun _ => rfl) fun _ =>
    .bind (.note _) fun _ => .pure _)

theorem copy (inv : Invocation) (source : FrameData)
    (hs : (Execute.frameData inv source).size < addressSpace) :
    Agrees (Roomy below) (copy inv source : Checked (Machine σ) Control)
      (Execute.copy inv source) :=
  .bind (.stack _) fun ⟨⟨[_, _, _]⟩, _⟩ => .bind (.check _) fun target =>
    .bind (.onMemory (copyBytes target.offset target.size hs _)) fun _ => .pure _

theorem extCodeCopy (setup : Setup) (hs : ∀ a, (setup.committed.code a).size < addressSpace) :
    Agrees (Roomy below) (extCodeCopy setup : Checked (Machine σ) Control)
      (Execute.extCodeCopy setup) :=
  .bind (.stack _) fun ⟨⟨[source, _, _, _]⟩, _⟩ => .part_bind (addressOf_toBytes source)
    (.bind (.check _) fun target =>
    .bind (.onMemory (copyBytes target.offset target.size (hs _) _)) fun _ =>
    .bind (.run fun _ => rfl) fun _ => .pure _)

theorem keccak : Agrees (Roomy below) (keccak : Checked (Machine σ) Control) Execute.keccak :=
  .bind (.stack _) fun _ => .bind (.stack _) fun _ => .bind (.check _) fun source =>
    .bind (.onMemory (getBytes source.offset source.size)) fun data =>
    .part_bind (wordOf_hash (Keccak.hash data)) (.bind (.stack _) fun _ => .pure _)

theorem mload : Agrees (Roomy below) (mload : Checked (Machine σ) Control) Execute.mload :=
  .bind (.stack _) fun _ => .bind (.check _) fun offset =>
    .bind (.onMemory (loadWord offset)) fun _ => .bind (.stack _) fun _ => .pure _

theorem mstore : Agrees (Roomy below) (mstore : Checked (Machine σ) Control) Execute.mstore :=
  .bind (.stack _) fun ⟨⟨[_, w]⟩, _⟩ => .bind (.check _) fun offset =>
    .bind (.onMemory (setBytes offset 32 w.toBytes)) fun _ => .pure _

theorem mstore8 : Agrees (Roomy below) (mstore8 : Checked (Machine σ) Control) Execute.mstore8 :=
  .bind (.stack _) fun ⟨⟨[_, w]⟩, _⟩ => .bind (.check _) fun offset =>
    .part_bind (byteAt_zero w) (.bind (.onMemory (setByte offset w.lowByte)) fun _ => .pure _)

theorem giveBack :
    Agrees (Roomy below) (giveBack : Checked (Machine σ) Control) Execute.giveBack := by
  refine .bind (.stack _) fun ⟨⟨[_, _]⟩, _⟩ => .bind (.check _) fun source =>
    .bind (.onMemory (getBytes source.offset source.size)) fun output => ?_
  split
  · exact .bind (.run level_handBack) fun _ => .bind (.output _) fun _ => .pure _
  · exact .bind (.output _) fun _ => .pure _

theorem levelBelow :
    Agrees (Roomy true) (levelBelow : Checked (Machine σ) Nat) (Machine.readRun (·.level + 1)) := by
  intro m hm
  refine ⟨?_, hm⟩
  have hread : lift (Machine.readRun (·.level)) m = some (.ok m.world.run.level m) := rfl
  rw [Checked.levelBelow, bind_of_ok hread, add_eq (hm.level rfl)]
  rfl

theorem beginRequest (op : String) (target : Option Address) :
    Agrees (Roomy true) (beginRequest op target : Checked (Machine σ) Unit)
      (Execute.beginRequest op target) :=
  .bind (g := fun _ => Execute.beginRequest op target) levelBelow fun _ =>
    .seq (.run fun _ => rfl) fun _ => .note _

theorem askCall (kind : CallKind) (target : Address) (input output : Except Fault Span)
    (request : Bytes → Request) :
    Agrees (Roomy true) (askCall kind target input output request : Checked (Machine σ) Progress)
      (Execute.askCall kind target input output request) :=
  .bind (.check _) fun input => .bind (.check _) fun _ => .bind (beginRequest _ _) fun _ =>
    .bind (.onMemory (getBytes input.offset input.size)) fun _ => .pure _

theorem call (kind : CallKind) :
    Agrees (Roomy true) (call kind : Checked (Machine σ) Progress) (Execute.call kind) := by
  cases kind with
  | call | callCode =>
    exact .bind (.stack _) fun ⟨⟨[_, callee, _, _, _, _, _]⟩, _⟩ =>
      .part_bind (addressOf_toBytes callee) (askCall _ _ _ _ _)
  | delegateCall | staticCall =>
    exact .bind (.stack _) fun ⟨⟨[_, callee, _, _, _, _]⟩, _⟩ =>
      .part_bind (addressOf_toBytes callee) (askCall _ _ _ _ _)

theorem askCreate (op : String) (init : Except Fault Span) (request : Bytes → Request) :
    Agrees (Roomy true) (askCreate op init request : Checked (Machine σ) Progress)
      (Execute.askCreate op init request) :=
  .bind (.check _) fun init => .bind (.onMemory (getBytes init.offset init.size)) fun _ =>
    .bind (beginRequest _ _) fun _ => .pure _

theorem create : Agrees (Roomy true) (create : Checked (Machine σ) Progress) Execute.create :=
  .bind (.stack _) fun ⟨⟨[_, _, _]⟩, _⟩ => askCreate _ _ _

theorem saltedCreate :
    Agrees (Roomy true) (saltedCreate : Checked (Machine σ) Progress) Execute.saltedCreate :=
  .bind (.stack _) fun ⟨⟨[_, _, _, _]⟩, _⟩ => askCreate _ _ _

theorem resolveCall (op : String) (output : Span) :
    Agrees (Roomy true) (resolveCall op output : Checked (Machine σ) Control)
      (Execute.resolveCall op output) := by
  refine .bind levelBelow fun _ => .bind (.readRun _) fun payloads => ?_
  match payloads with
  | [_] => exact .bind (.note _) fun _ => .bind (.onMemory (setBytes _ _ _)) fun _ => .pushWord _
  | [] | _ :: _ :: _ => exact .bind (.note _) fun _ => .bind (.run fun _ => rfl) fun _ => .pure _

theorem resolveCreate :
    Agrees (Roomy true) (resolveCreate : Checked (Machine σ) Control) Execute.resolveCreate :=
  .bind levelBelow fun _ => .bind (.readRun _) fun _ => .bind (.note _) fun _ =>
    .part_bind (wordOf_address _) (.pushWord _)

theorem resolve (resolution : Resolution) :
    Agrees (Roomy true) (resolve resolution : Checked (Machine σ) Control)
      (Execute.resolve resolution) := by
  refine .bind (.readRun _) fun aborted => ?_
  split
  · exact .pure _
  cases resolution with
  | call op output => exact resolveCall op output
  | create => exact resolveCreate

/-- An immediate fits in a word, and the counter moves over it, if it starts inside the code. -/
theorem push {inv : Invocation} {size : Nat} {m : Machine σ} (hm : Roomy below m)
    (hpc : m.frame.pc < inv.code.bytes.size) (hcode : inv.code.bytes.size + 32 < addressSpace)
    (hsize : size ≤ 32) :
    push inv size m = some (Execute.push inv size m) ∧
      Roomy below ((Execute.push inv size).final m) := by
  have hread : lift Machine.pc m = some (.ok m.frame.pc m) := rfl
  have hpcread : Machine.pc m = .ok m.frame.pc m := rfl
  rw [Checked.push, Execute.push, bind_of_ok hread, Action.final_bind_of_ok hpcread,
    Action.bind_of_ok hpcread]
  have hrest : Agrees (Roomy below)
      ((do
        let w ← immediate inv.code.bytes m.frame.pc size
        lift <| Machine.onStack (Stack.push w)
        let pc ← add m.frame.pc size
        lift <| Machine.setPc pc
        return .next) : Checked (Machine σ) Control)
      (do
        Machine.onStack (Stack.push (Execute.immediate inv.code.bytes m.frame.pc size))
        Machine.setPc (m.frame.pc + size)
        return .next) :=
    .part_bind (immediate_eq hpc hcode hsize) (.bind (.stack _) fun _ =>
      .part_bind (add_eq (by omega)) (.bind (.lift fun _ hm => ⟨hm.memory, hm.level⟩) fun _ =>
      .pure _))
  exact hrest m hm

theorem selfBalance (setup : Setup) (inv : Invocation) :
    Agrees (Roomy below) (lift (Execute.selfBalance setup inv : Action (Machine σ) Control))
      (Execute.selfBalance setup inv) :=
  .seq (.readRun _) fun _ => .seq (.run fun _ => rfl) fun _ => .pushWord _

theorem sload (setup : Setup) (inv : Invocation) :
    Agrees (Roomy below) (lift (Execute.sload setup inv : Action (Machine σ) Control))
      (Execute.sload setup inv) :=
  .seq (.stack _) fun _ => .seq (.readRun _) fun _ => .seq (.stack _) fun _ =>
    .seq (.run fun _ => rfl) fun _ => .lift_pure _

theorem sstore (inv : Invocation) :
    Agrees (Roomy below) (lift (Execute.sstore inv : Action (Machine σ) Control))
      (Execute.sstore inv) :=
  .seq (.stack _) fun ⟨⟨[_, _]⟩, _⟩ => .seq (.note _) fun _ => .seq (.run fun _ => rfl) fun _ =>
    .seq (.run fun _ => rfl) fun _ => .lift_pure _

theorem invalid :
    Agrees (Roomy below) (lift (Execute.invalid : Action (Machine σ) Control)) Execute.invalid :=
  .seq (.run fun _ => rfl) fun _ => .lift_pure _

/-- Every instruction agrees, given room for its immediate and for what it copies. -/
theorem start {setup : Setup} {inv : Invocation} {i : Instruction} {m : Machine σ}
    (ha : Allocated setup inv) (hi : i.Encoded) (hm : Roomy i.asksBelow m)
    (hpc : m.frame.pc < inv.code.bytes.size) :
    start setup inv i m = some (Execute.start setup inv i m) ∧
      Roomy i.asksBelow ((Execute.start setup inv i).final m) := by
  cases i with
  | push size => exact bind_at (push hm hpc ha.code.room hi) fun _ => .pure _
  | stop | jumpDest | undefined byte => exact Agrees.lift (fun _ hm => hm) m hm
  | unary op =>
    exact aloneOf (.seq (.stack _) fun _ => .seq (.stack _) fun _ => .lift_pure _) m hm
  | binary op => exact alone (overTwo op) m hm
  | ternary op => exact alone (overThree op) m hm
  | keccak => exact alone keccak m hm
  | quantity q => exact alone (quantity setup inv q) m hm
  | account query => exact alone (account setup query) m hm
  | selfBalance => exact aloneOf (selfBalance setup inv) m hm
  | blockHash => exact alone (overTop (hashBefore_eq setup.env.block)) m hm
  | callDataLoad => exact alone (overTop (wordOfInput_eq ha.input.size_lt)) m hm
  | copy source =>
    cases source with
    | callData => exact alone (copy inv .callData ha.input.size_lt) m hm
    | code => exact alone (copy inv .code ha.code.size_lt) m hm
  | extCodeCopy => exact alone (extCodeCopy setup fun a => (ha.committed a).size_lt) m hm
  | pop | returnDataCopy =>
    exact aloneOf (.seq (.mapped _ (.stack _)) fun _ => .lift_pure _) m hm
  | mload => exact alone mload m hm
  | mstore => exact alone mstore m hm
  | mstore8 => exact alone mstore8 m hm
  | sload => exact aloneOf (sload setup inv) m hm
  | sstore => exact aloneOf (sstore inv) m hm
  | jump => exact aloneOf (.seq (.stack _) fun _ => .lift_pure _) m hm
  | jumpIf => exact aloneOf (.seq (.stack _) fun ⟨⟨[_, _]⟩, _⟩ => .lift_pure _) m hm
  | dup place => exact alone (.bind (.onStack (dup place)) fun _ => .pure _) m hm
  | swap place => exact alone (.bind (.onStack (swap place)) fun _ => .pure _) m hm
  | log topics =>
    have htopics : topics ≤ 4 := hi
    have hspace : 6 < addressSpace := by decide
    exact alone (log (by omega)) m hm
  | create => exact create m hm
  | saltedCreate => exact saltedCreate m hm
  | call kind => exact call kind m hm
  | ret | revert => exact alone giveBack m hm
  | invalid => exact aloneOf invalid m hm
  | selfDestruct => exact alone (selfDestruct setup inv) m hm

/-- An instruction agrees as a whole if the host does on what it is asked. -/
theorem execute {setup : Setup} {inv : Invocation} {i : Instruction} {m : Machine σ}
    {checked : Checked.Host σ} {host : SpeculativeEvm.Host σ} (ha : Allocated setup inv)
    (hi : i.Encoded) (hm : Roomy i.asksBelow m) (hpc : m.frame.pc < inv.code.bytes.size)
    (hh : ∀ request resolution m',
      Execute.start setup inv i m = .ok (.ask request resolution) m' →
      checked inv request m'.world = some (host inv request m'.world) ∧
        ((host inv request).final m'.world).run.level = m'.world.run.level) :
    execute setup checked inv i m = some (SpeculativeEvm.execute setup host inv i m) ∧
      Roomy false ((SpeculativeEvm.execute setup host inv i).final m) := by
  obtain ⟨hrun, hroom⟩ := start ha hi hm hpc
  refine bind_from hrun (fun progress m' hs => ?_) fun e m' hs => ?_
  · rw [Action.final_of_ok hs] at hroom
    cases progress with
    | done control => exact ⟨rfl, hroom.of_any⟩
    | ask request resolution =>
      obtain ⟨hanswer, hlevel⟩ := hh request resolution m' hs
      have hasks : i.asksBelow = true := (Execute.start_ask setup inv hs).1.asksBelow
      rw [hasks] at hroom
      have hworld : Roomy true ((Machine.onWorld (host inv request)).final m') := by
        rw [Machine.final_onWorld]
        exact ⟨hroom.memory, fun hb => hlevel ▸ hroom.level hb⟩
      obtain ⟨hresolved, hleft⟩ := bind_at ⟨onWorld_at hanswer, hworld⟩ fun _ => resolve resolution
      exact ⟨hresolved, hleft.of_any⟩
  · rw [Action.final_of_error hs] at hroom
    exact hroom.of_any

end Agrees

end Checked

end SpeculativeEvm
