import SpeculativeEvm.Proofs.CreationNonces
import SpeculativeEvm.Proofs.Execute.Paired

/-! Running again. A run that starts over finds nothing of an earlier one but the table of nonces,
which belongs to the host and outlives the run. Only creations read it. So what a run does depends
on the table as far as the accounts that it creates from are concerned: where these have the same
nonces as before, the run is the same again, and where one of them has another, the run makes other
creations. -/

namespace SpeculativeEvm

open SpeculativeEvm.Action Nesting Execute

theorem Speculation.lockstep_eq : Speculation.Lockstep (· = ·) where
  overlay h := congrArg overlay h.symm
  outcome h := congrArg outcome h.symm
  recordRead h a := congrArg (recordRead · a) h
  recordWrite h a := congrArg (recordWrite · a) h
  withOverlay h o := congrArg (fun s => { s with overlay := o }) h
  withOutcome h o := congrArg (fun s => { s with outcome := o }) h
  clearBelow h := congrArg clearBelow h
  handBack h output := congrArg (handBack · output) h

namespace Nesting

/-- The next nonce of each account of `P` is the same in both tables. -/
def SameFor (setup : Setup) (P : Address → Prop) (nonces nonces' : Nonces) : Prop :=
  ∀ a, P a → nextNonce setup nonces' a = nextNonce setup nonces a

theorem SameFor.insert {setup : Setup} {P : Address → Prop} {nonces nonces' : Nonces}
    (h : SameFor setup P nonces nonces') (a : Address) (n : UInt64) :
    SameFor setup P (nonces.insert a n) (nonces'.insert a n) := by
  intro b hb
  rw [nextNonce_insert, nextNonce_insert, h b hb]

theorem child_create (setup : Setup) (inv : Invocation) (value : Word) (init : Bytes)
    (w : World Nonces) : let nonce := nextNonce setup w.host inv.address
    child setup inv (.create value init) w =
      .ok ⟨Creation.address inv.address nonce, inv.address, value, .ofBytes init, #[]⟩
        ⟨w.run, w.host.insert inv.address (nonce + 1), w.journal⟩ := rfl

end Nesting

/-- Journals apart, the worlds differ in their tables alone, and not for accounts of `P`. -/
abbrev World.Across (setup : Setup) (P : Address → Prop) (w v : World Nonces) : Prop :=
  w.Paired (· = ·) (SameFor setup P) v

abbrev Machine.Across (setup : Setup) (P : Address → Prop) (m m' : Machine Nonces) : Prop :=
  m.Paired (· = ·) (SameFor setup P) m'

structure Point.Across (setup : Setup) (P : Address → Prop) (p p' : Point) : Prop where
  depth : p'.depth = p.depth
  budget : p'.budget = p.budget
  inv : p'.inv = p.inv
  machine : p.machine.Across setup P p'.machine

variable {setup : Setup} {P : Address → Prop}

namespace World.Across

variable {w v : World Nonces} (h : w.Across setup P v)

include h

theorem below : w.PairedBelow (· = ·) (SameFor setup P) v := by
  refine ⟨h, ?_, ?_⟩
  · rw [h.run]
  · rw [h.run]

theorem ascend : w.ascend.Across setup P v.ascend := ⟨congrArg Speculation.ascend h.run, h.host⟩

theorem entry : (entry setup w).Across setup P (Nesting.entry setup v) :=
  ⟨rfl, congrArg Speculation.descend h.run, h.host⟩

/-- The frame that a request leads to is the same if a creator has the same nonce. -/
theorem child (inv : Invocation) (request : Request)
    (hP : ∀ value init, request = .create value init → P inv.address) :
    Agree (World.Across setup P) (child setup inv request w)
      (Nesting.child setup inv request v) := by
  cases request with
  | create value init =>
    rw [child_create, child_create, h.host inv.address (hP value init rfl)]
    exact .ok ⟨h.run, h.host.insert inv.address _⟩
  | _ => exact .ok h

omit h

theorem refuse : Both (World.Across setup P) refuse refuse := by
  intro w v h
  rw [refuse_apply, refuse_apply]
  exact .ok ⟨h.run, h.host⟩

/-- A nested frame is entered and left in the same way if it comes to the same. -/
theorem enter {depth : Nat} {next : Invocation}
    (hr : let first (w : World Nonces) : Point :=
        ⟨depth, setup.settings.maxSteps, next, Nesting.entry setup w⟩
      Agree (Machine.Across setup P) ((first w).result setup) ((first v).result setup)) :
    Agree (World.Across setup P) (enter setup (Nesting.host setup depth) next w)
      (Nesting.enter setup (Nesting.host setup depth) next v) := by
  have hfirst (w : World Nonces) :
      (⟨{ (Nesting.entry setup w).frame with pc := 0 }, (Nesting.entry setup w).world⟩ :
        Machine Nonces) = Nesting.entry setup w := rfl
  rw [enter_apply, enter_apply, Interpreter.run_apply, Interpreter.run_apply, hfirst, hfirst]
  simp only [Point.result] at hr
  generalize Interpreter.runFor setup (Nesting.host setup depth) next setup.settings.maxSteps
    (Nesting.entry setup w) = r at hr
  generalize Interpreter.runFor setup (Nesting.host setup depth) next setup.settings.maxSteps
    (Nesting.entry setup v) = r' at hr
  cases hr with
  | ok hm => exact .ok (ascend hm.world)
  | error hm =>
    have ha := ascend hm.world
    simp only
    split
    · exact .error ha
    · exact .ok ⟨ha.run, ha.host⟩

theorem serve {descend : Invocation → Action (World Nonces) Bool} {inv : Invocation}
    {request : Request} (hc : Agree (World.Across setup P) (Nesting.child setup inv request w)
      (Nesting.child setup inv request v))
    (hd : ∀ next w' v', Nesting.child setup inv request w = .ok next w' →
      w'.Across setup P v' → Agree (World.Across setup P) (descend next w') (descend next v')) :
    Agree (World.Across setup P) (serve setup descend inv request w)
      (Nesting.serve setup descend inv request v) := by
  generalize hw : Nesting.child setup inv request w = r at hc
  generalize hv : Nesting.child setup inv request v = r' at hc
  cases hc with
  | @ok next w' v' h =>
    have ha := hd next w' v' hw h
    rw [serve_apply hw, serve_apply hv]
    generalize descend next w' = r at ha
    generalize descend next v' = r' at ha
    cases ha with
    | @ok completed w v h =>
      refine .ok ?_
      split
      · exact ⟨congrArg (fun s => s.setCreated (s.level + 1) next.address) h.run, h.host⟩
      · exact h
    | error h => exact .error h
  | error _ =>
    obtain ⟨next, nonces, hok⟩ := child_ok setup inv request w
    cases hw.symm.trans hok

end World.Across

theorem Point.entered?_eq (setup : Setup) (p : Point) : p.entered? setup =
    (p.asked? setup).bind fun (request, w) =>
      match p.depth, child setup p.inv request w with
      | depth + 1, .ok next w' => some ⟨depth, setup.settings.maxSteps, next, entry setup w'⟩
      | _, _ => none := by
  unfold entered? asked?
  rcases p.opcode? with - | opcode
  · rfl
  simp only [Option.bind_some]
  rcases Execute.start setup p.inv (Instruction.decode opcode) (p.noted opcode) with
    ⟨control | ⟨request, resolution⟩, m⟩ | ⟨e, m⟩ <;> rfl

namespace Point.Across

variable {p p' : Point} (h : p.Across setup P p')

include h

theorem opcode : p'.opcode? = p.opcode? := by
  unfold opcode?
  rw [h.budget, h.inv, h.machine.frame]

theorem start (opcode : UInt8) : Agree (Machine.Across setup P)
    (Execute.start setup p.inv (Instruction.decode opcode) (p.noted opcode))
    (Execute.start setup p'.inv (Instruction.decode opcode) (p'.noted opcode)) := by
  rw [h.inv]
  exact Machine.Paired.start Speculation.lockstep_eq setup p.inv _
    (Machine.Paired.note _ _ h.machine).final

/-- Both frames ask for the same, if for anything. -/
theorem asked : Option.Rel (fun x y => y.1 = x.1 ∧ x.2.Across setup P y.2) (p.asked? setup)
    (p'.asked? setup) := by
  unfold asked?
  rw [h.opcode]
  rcases p.opcode? with - | opcode
  · exact .none
  have ha := h.start opcode
  simp only [Option.bind_some]
  generalize Execute.start setup p.inv _ _ = r at ha
  generalize Execute.start setup p'.inv _ _ = r' at ha
  rcases ha with @⟨control | ⟨request, resolution⟩, m, m', hm⟩ | _
  · exact .none
  · exact .some ⟨rfl, hm.world⟩
  · exact .none

section Creating

/-! From here on the account that creates at the point, if one does, is among those of `P`. -/

variable (hP : ∀ c, p.creating? setup = some c → P c.sender)

include hP

/-- The creations that the points ask for are the same. -/
theorem creating : p'.creating? setup = p.creating? setup := by
  have ha := h.asked
  generalize hp : p.asked? setup = x at ha
  generalize hp' : p'.asked? setup = y at ha
  cases ha with
  | none =>
    rw [creating?, creating?, hp, hp']
    rfl
  | @some x y hxy =>
    obtain ⟨request, w⟩ := x
    obtain ⟨request', v⟩ := y
    obtain rfl : request' = request := hxy.1
    cases request' with
    | create value init =>
      have hc := creating?_of_create hp
      rw [hc, creating?_of_create hp', h.inv, h.machine.world.host _ (hP _ hc)]
    | _ =>
      rw [creating?, creating?, hp, hp']
      rfl

theorem child {request : Request} {w v : World Nonces} (hp : p.asked? setup = some (request, w))
    (hw : w.Across setup P v) : Agree (World.Across setup P) (child setup p.inv request w)
      (Nesting.child setup p'.inv request v) := by
  rw [h.inv]
  refine hw.child p.inv request ?_
  rintro value init rfl
  exact hP _ (creating?_of_create hp)

/-- The frames that the points enter start across from each other. -/
theorem entered : Option.Rel (Point.Across setup P) (p.entered? setup) (p'.entered? setup) := by
  have ha := h.asked
  rw [entered?_eq, entered?_eq, h.depth]
  generalize hp : p.asked? setup = x at ha
  generalize hp' : p'.asked? setup = y at ha
  cases ha with
  | none => exact .none
  | @some x y hxy =>
    obtain ⟨request, w⟩ := x
    obtain ⟨request', v⟩ := y
    obtain ⟨rfl, hw⟩ : request' = request ∧ w.Across setup P v := hxy
    have hc := h.child hP hp hw
    simp only [Option.bind_some]
    generalize Nesting.child setup p.inv request' w = r at hc
    generalize Nesting.child setup p'.inv request' v = r' at hc
    rcases p.depth with - | depth
    · exact .none
    · cases hc with
      | ok hv => exact .some ⟨rfl, rfl, rfl, hv.entry⟩
      | error hv => exact .none

/-- The host gives both frames the same answer if the frames it runs for them come to the same. -/
theorem host {request : Request} {w v : World Nonces} (hp : p.asked? setup = some (request, w))
    (hw : w.Across setup P v) (he : ∀ q q', p.entered? setup = some q → q.Across setup P q' →
      Agree (Machine.Across setup P) (q.result setup) (q'.result setup)) :
    Agree (World.Across setup P) (host setup p.depth p.inv request w)
      (Nesting.host setup p'.depth p'.inv request v) := by
  have hc := h.child hP hp hw
  rw [h.inv] at hc ⊢
  rw [h.depth]
  rcases hd : p.depth with - | depth
  · exact World.Across.serve hc fun next w' v' _ hv => World.Across.refuse hv
  · refine World.Across.serve hc fun next w' v' hn hv => World.Across.enter ?_
    refine he _ _ ?_ ⟨rfl, rfl, rfl, hv.entry⟩
    rw [entered?_eq, hp, hd, Option.bind_some]
    simp only [hn]

/-- The instructions come to the same if the frames they ask for do. -/
theorem advance {opcode : UInt8} (hop : p.opcode? = some opcode)
    (he : ∀ q q', p.entered? setup = some q → q.Across setup P q' →
      Agree (Machine.Across setup P) (q.result setup) (q'.result setup)) :
    Agree (Machine.Across setup P)
      (Interpreter.advance setup (Nesting.host setup p.depth) p.inv opcode p.machine)
      (Interpreter.advance setup (Nesting.host setup p'.depth) p'.inv opcode p'.machine) := by
  have hnoted : (p.noted opcode).Across setup P (p'.noted opcode) :=
    (Machine.Paired.note _ _ h.machine).final
  rw [advance_apply, advance_apply, h.inv]
  refine Agree.bind (Machine.Paired.execute Speculation.lockstep_eq p.inv _ rfl hnoted ?_) ?_
  · intro request resolution t t' hs _ ht
    have hp : p.asked? setup = some (request, t.world) := by
      rw [asked?, hop, Option.bind_some, hs]
    have ha := h.host hP hp ht he
    rw [h.inv] at ha
    exact ha.mono fun _ _ => World.Across.below
  · exact fun control => Machine.Paired.moveOn Speculation.lockstep_eq p.inv opcode control

end Creating

/-- The frames go on at points across from each other, if they go on. -/
theorem next {opcode : UInt8} (hop : p.opcode? = some opcode)
    (ha : Agree (Machine.Across setup P)
      (Interpreter.advance setup (Nesting.host setup p.depth) p.inv opcode p.machine)
      (Interpreter.advance setup (Nesting.host setup p'.depth) p'.inv opcode p'.machine)) :
    Option.Rel (Point.Across setup P) (p.next? setup) (p'.next? setup) := by
  rw [next?_of_opcode hop, next?_of_opcode (h.opcode.trans hop), h.depth, h.budget, h.inv]
  rw [h.depth, h.inv] at ha
  generalize Interpreter.advance setup _ p.inv opcode p.machine = r at ha
  generalize Interpreter.advance setup _ p.inv opcode p'.machine = r' at ha
  cases ha with
  | @ok goesOn m m' hm =>
    cases goesOn with
    | true => exact .some ⟨rfl, rfl, rfl, hm⟩
    | false => exact .none
  | error _ => exact .none

theorem result_of_ended (hop : p.opcode? = none) :
    Agree (Machine.Across setup P) (p.result setup) (p'.result setup) := by
  have hm := h.machine
  unfold opcode? at hop
  rw [result, result, h.depth, h.budget, h.inv]
  cases hb : p.budget with
  | zero =>
    rw [Interpreter.runFor, Interpreter.fetch_bind, Interpreter.fetch_bind, hm.frame]
    cases p.inv.code.bytes[p.machine.frame.pc]? with
    | none => exact .ok hm
    | some opcode => exact .error hm
  | succ budget =>
    rw [hb] at hop
    rw [Interpreter.runFor_of_ended setup _ _ hop,
      Interpreter.runFor_of_ended setup _ _ (hm.frame ▸ hop)]
    exact .ok hm

end Point.Across

/-- The creations of a frame, in turn: that of its instruction, those of the frame entered there and
those of the frame from its next point on. -/
theorem creations_course_of_some {p : Point} {opcode : UInt8} (h : p.opcode? = some opcode) :
    creations setup (p.course setup) = (p.creating? setup).toList ++
      (((p.entered? setup).elim [] fun q => creations setup (q.course setup)) ++
        (p.next? setup).elim [] fun q => creations setup (q.course setup)) := by
  have happend (l l' : List Moment) :
      creations setup (l ++ .ends p :: l') = creations setup l ++ creations setup l' := by
    simp [creations, Moment.started?]
  rw [Point.course_of_some h, creations_starts_cons, happend]
  cases p.entered? setup <;> cases p.next? setup <;> rfl

/-- As long as the accounts that a frame and those it asks for create from have the same nonces in
both tables, the frame comes to the same and the creations are the same. -/
theorem Point.Across.again {p p' : Point} (h : p.Across setup P p')
    (hP : ∀ c ∈ creations setup (p.course setup), P c.sender) :
    Agree (Machine.Across setup P) (p.result setup) (p'.result setup) ∧
      creations setup (p'.course setup) = creations setup (p.course setup) := by
  induction p using Point.induct setup generalizing p' with
  | ended p hop =>
    refine ⟨h.result_of_ended hop, ?_⟩
    rw [Point.course_of_none hop, Point.course_of_none (h.opcode.trans hop)]
  | turn p opcode hop ihe ihn =>
    have hop' := h.opcode.trans hop
    -- the senders are those of the instruction, of the frame it enters and of the frame's next point
    rw [creations_course_of_some hop] at hP
    simp only [List.mem_append] at hP
    have hown (c : Creating) (hc : p.creating? setup = some c) : P c.sender :=
      hP c (.inl (Option.mem_toList.2 hc))
    have hbelow {q q' : Point} (hq : p.entered? setup = some q) (ha : q.Across setup P q') :=
      ihe q hq ha fun c hc => hP c (.inr (.inl (by rwa [hq])))
    have hafter {q q' : Point} (hq : p.next? setup = some q) (ha : q.Across setup P q') :=
      ihn q hq ha fun c hc => hP c (.inr (.inr (by rwa [hq])))
    have hadvance := h.advance hown hop fun q q' hq ha => (hbelow hq ha).1
    have hentered := h.entered hown
    have hnext := h.next hop hadvance
    rw [creations_course_of_some hop, creations_course_of_some hop', h.creating hown]
    generalize hq : p.entered? setup = x at hentered
    generalize hq' : p'.entered? setup = x' at hentered
    generalize hn : p.next? setup = y at hnext
    generalize hn' : p'.next? setup = y' at hnext
    have hentries : (x'.elim [] fun q => creations setup (q.course setup)) =
        x.elim [] fun q => creations setup (q.course setup) := by
      cases hentered with
      | none => rfl
      | some ha => exact (hbelow hq ha).2
    rw [hentries]
    cases hnext with
    | none =>
      refine ⟨?_, rfl⟩
      rw [Point.result_of_not_next hop hn, Point.result_of_not_next hop' hn']
      generalize Interpreter.advance setup _ p.inv opcode p.machine = r at hadvance
      generalize Interpreter.advance setup _ p'.inv opcode p'.machine = r' at hadvance
      cases hadvance with
      | ok hm => exact .ok hm
      | error hm => exact .error hm
    | some ha =>
      obtain ⟨hr, hc⟩ := hafter hn ha
      refine ⟨?_, congrArg _ (congrArg _ hc)⟩
      rwa [Point.result_of_next hn, Point.result_of_next hn']

/-- Creations that are numbered from each of two tables on take the same first nonces in both. -/
theorem Numbered.next_eq {next next' : Address → UInt64} {made : List Creating}
    (h : Numbered next made) (h' : Numbered next' made) :
    ∀ c ∈ made, next' c.sender = next c.sender := by
  induction h generalizing next' with
  | nil => exact fun _ hc => nomatch hc
  | @cons next first rest hn _ _ ih =>
    cases h' with
    | cons hn' _ hr' =>
      have hfirst : next' first.sender = next first.sender := hn'.symm.trans hn
      intro c hc
      rcases List.mem_cons.1 hc with rfl | hc
      · exact hfirst
      · have hc := ih hr' c hc
        by_cases hs : first.sender = c.sender
        · rwa [← hs]
        · simpa only [if_neg hs] using hc

structure Machine.SameBesidesNonces (m m' : Machine Nonces) : Prop where
  frame : m'.frame = m.frame
  run : m'.world.run = m.world.run

/-- A run that starts over with the table that earlier runs have left makes the creations of a run
with a fresh table if and only if each account that creates in the latter still has its committed
nonce in the table. Then it also comes to the same result or fault and leaves the same stack, memory
and run. -/
theorem run_again (setup : Setup) (inv : Invocation) (frame : Frame) (nonces : Nonces)
    (journal journal' : Journal) :
    let fresh : Machine Nonces := ⟨frame, freshWorld journal⟩
    let again : Machine Nonces := ⟨frame, ⟨{}, nonces, journal'⟩⟩
    let made (m : Machine Nonces) := creations setup ((Point.start setup inv m).course setup)
    (made again = made fresh ↔
      ∀ c ∈ made fresh, nextNonce setup nonces c.sender = setup.committed.nonce c.sender) ∧
    (made again = made fresh → Agree Machine.SameBesidesNonces
      (Nesting.execute setup inv fresh) (Nesting.execute setup inv again)) := by
  intro fresh again made
  -- equal creations are numbered from either table on, so their senders start from equal nonces
  have hnumbered (m : Machine Nonces) : Numbered (nextNonce setup m.world.host) (made m) :=
    numbered_of_tells ((nonces_retold setup).tells (Point.start setup inv m))
  have hnext (h : made again = made fresh) (c : Creating) (hc : c ∈ made fresh) :
      nextNonce setup nonces c.sender = setup.committed.nonce c.sender := by
    rw [← nextNonce_empty setup c.sender]
    exact (hnumbered fresh).next_eq (h ▸ hnumbered again) c hc
  have hagain (h : ∀ c ∈ made fresh,
      nextNonce setup nonces c.sender = setup.committed.nonce c.sender) :=
    let P (a : Address) : Prop := nextNonce setup nonces a = setup.committed.nonce a
    have hacross : (Point.start setup inv fresh).Across setup P (Point.start setup inv again) :=
      ⟨rfl, rfl, rfl, rfl, rfl, fun a ha => ha.trans (nextNonce_empty setup a).symm⟩
    hacross.again h
  refine ⟨⟨hnext, fun h => (hagain h).2⟩, fun h => ?_⟩
  have hr := (hagain (hnext h)).1
  rw [Point.execute_eq_result, Point.execute_eq_result]
  generalize (Point.start setup inv fresh).result setup = r at hr
  generalize (Point.start setup inv again).result setup = r' at hr
  cases hr with
  | @ok _ m m' hm =>
    simp only [hm.frame]
    exact .ok ⟨rfl, hm.world.run.symm⟩
  | error hm => exact .error ⟨hm.frame, hm.world.run.symm⟩

def creatingOnce (a : Address) : Invocation :=
  ⟨a, .zero, 0, .ofBytes #[0x5f, 0x5f, 0x5f, 0xf0], #[]⟩

def createdOnce (a : Address) : Machine Nonces :=
  (Nesting.execute fromNonceFive (creatingOnce a)).final ⟨.fresh 64, freshWorld {}⟩

def createdAfter (earlier : Machine Nonces) (a : Address) : Machine Nonces :=
  (Nesting.execute fromNonceFive (creatingOnce a)).final ⟨.fresh 64, ⟨{}, earlier.world.host, {}⟩⟩

/-- After a run in which another account has created, the same address is pushed again. -/
theorem createdAfter_another :
    (createdAfter (createdOnce ⟨2⟩) ⟨1⟩).frame.stack.words =
      (createdOnce ⟨1⟩).frame.stack.words := by
  obtain ⟨hiff, hagree⟩ := run_again fromNonceFive (creatingOnce ⟨1⟩) (.fresh 64)
    (createdOnce ⟨2⟩).world.host {} {}
  have hsenders : (creations fromNonceFive ((Point.start fromNonceFive (creatingOnce ⟨1⟩)
      ⟨.fresh 64, freshWorld {}⟩).course fromNonceFive)).map Creating.sender = [⟨1⟩] := by
    decide +kernel
  have hnonce : nextNonce fromNonceFive (createdOnce ⟨2⟩).world.host ⟨1⟩ =
      fromNonceFive.committed.nonce ⟨1⟩ := by
    decide +kernel
  have hsame := hagree (hiff.2 fun c hc => by
    have hsender : c.sender ∈ [⟨1⟩] := hsenders ▸ List.mem_map_of_mem hc
    rw [List.mem_singleton.1 hsender, hnonce])
  exact congrArg (·.stack.words) hsame.final.frame

/-- After a run in which the account itself has created, a run that starts over pushes another
address. -/
theorem createdAfter_itself :
    (createdAfter (createdOnce ⟨1⟩) ⟨1⟩).frame.stack.words ≠
      (createdOnce ⟨1⟩).frame.stack.words := by
  decide +kernel

end SpeculativeEvm
