import SpeculativeEvm.Proofs.Nesting.Record

/-! The nonces of creations. All frames of a run count in one table, which has an account's nonce
once the account has created, and each plain creation counts before its init code runs. So the
creations of an account are numbered in the order in which they start, whatever comes of them, from
the account's committed nonce on, and no two of a run share a sender and a nonce. -/

namespace SpeculativeEvm

open Nesting Execute

structure Creating where
  sender : Address
  nonce : UInt64
  address : Address

/-- The table when the creation, if there is one, has used its nonce up. -/
def Creating.count (nonces : Nonces) : Option Creating → Nonces
  | none => nonces
  | some c => nonces.insert c.sender (c.nonce + 1)

namespace Nesting

/-- The nonce that the account's next creation takes. -/
def nextNonce (setup : Setup) (nonces : Nonces) (a : Address) : UInt64 :=
  nonces[a]?.getD (setup.committed.nonce a)

theorem takeNonce_apply (setup : Setup) (a : Address) (w : World Nonces) :
    takeNonce setup a w = .ok (nextNonce setup w.host a)
      ⟨w.run, w.host.insert a (nextNonce setup w.host a + 1), w.journal⟩ := rfl

theorem nextNonce_insert (setup : Setup) (nonces : Nonces) (a b : Address) (n : UInt64) :
    nextNonce setup (nonces.insert a n) b = if a = b then n else nextNonce setup nonces b := by
  unfold nextNonce
  rw [Std.ExtTreeMap.getElem?_insert]
  by_cases h : a = b <;> simp [h]

theorem nextNonce_empty (setup : Setup) (a : Address) :
    nextNonce setup ∅ a = setup.committed.nonce a := by
  simp [nextNonce]

end Nesting

/-- No instruction changes the host by itself. -/
theorem Execute.host_start {σ : Type} (setup : Setup) (inv : Invocation) (i : Instruction)
    (m : Machine σ) : ((start setup inv i).final m).world.host = m.world.host := by
  let R (m m' : Machine σ) : Prop := m'.world.host = m.world.host
  have : IsPreorder (Machine σ) R :=
    { refl := fun _ => rfl, trans := fun _ _ _ h h' => h'.trans h }
  have hparts : Machine.Parts R := .of_localChange fun h => congrArg World.host h.world
  refine start_keeps hparts setup inv (fun _ f m => rfl) (fun _ event m => ?_)
    (fun _ output m => rfl) m
  show ((Machine.note event).final m).world.host = m.world.host
  rw [Machine.final_note]

namespace Point

/-- The plain creation that the instruction at the point asks for, with the nonce it takes and the
address of the frame it would run; salted ones are none. -/
def creating? (setup : Setup) (p : Point) : Option Creating :=
  (p.asked? setup).bind fun
    | (.create value init, w) =>
      match takeNonce setup p.inv.address w, child setup p.inv (.create value init) w with
      | .ok nonce _, .ok next _ => some ⟨p.inv.address, nonce, next.address⟩
      | _, _ => none
    | _ => none

variable {setup : Setup} {p q : Point} {opcode : UInt8} {c : Creating}

theorem asked?_eq_some {request : Request} {w : World Nonces}
    (h : p.asked? setup = some (request, w)) : ∃ opcode resolution m, p.opcode? = some opcode ∧
      Execute.start setup p.inv (Instruction.decode opcode) (p.noted opcode) =
        .ok (.ask request resolution) m ∧ m.world = w := by
  obtain ⟨opcode, hop, h⟩ := Option.bind_eq_some_iff.1 h
  split at h
  · next request' resolution m hs =>
    cases h
    exact ⟨opcode, resolution, m, hop, hs, rfl⟩
  · cases h

/-- A frame asks in a world in which the host is as the instruction found it. -/
theorem host_of_asked {request : Request} {w : World Nonces}
    (h : p.asked? setup = some (request, w)) : w.host = p.machine.world.host := by
  obtain ⟨opcode, resolution, m, -, hs, rfl⟩ := asked?_eq_some h
  rw [(start_ask setup p.inv hs).2.host, noted, Machine.final_note]

theorem creating?_of_create {value : Word} {init : Bytes} {w : World Nonces}
    (h : p.asked? setup = some (.create value init, w)) :
    let nonce := nextNonce setup p.machine.world.host p.inv.address
    p.creating? setup = some ⟨p.inv.address, nonce, Creation.address p.inv.address nonce⟩ := by
  rw [← host_of_asked h, creating?, h]
  rfl

theorem creating?_eq_some (h : p.creating? setup = some c) :
    (∃ value init w, p.asked? setup = some (.create value init, w)) ∧ c.sender = p.inv.address ∧
      c.nonce = nextNonce setup p.machine.world.host c.sender ∧
      c.address = Creation.address c.sender c.nonce := by
  obtain ⟨⟨request, w⟩, ha, hc⟩ := Option.bind_eq_some_iff.1 h
  cases request with
  | create value init =>
    cases h.symm.trans (creating?_of_create ha)
    exact ⟨⟨value, init, w, ha⟩, rfl, rfl, rfl⟩
  | _ => cases hc

/-- The init code runs, if it runs, in a frame of the creation's address. -/
theorem address_of_entered (h : p.creating? setup = some c) (he : p.entered? setup = some q) :
    q.inv.address = c.address := by
  obtain ⟨⟨value, init, w, ha⟩, hsender, hnonce, haddress⟩ := creating?_eq_some h
  obtain ⟨opcode, hop, request, resolution, m, depth, next, w', hs, -, hc, rfl⟩ :=
    entered?_eq_some he
  have hhost := host_of_asked ha
  obtain ⟨opcode', resolution', m', hop', hs', rfl⟩ := asked?_eq_some ha
  cases hop.symm.trans hop'
  cases hs.symm.trans hs'
  cases hc
  rw [haddress, hnonce, hsender, ← hhost]
  rfl

/-- Nothing but the nonce of a plain creation is entered in the table. -/
theorem begun_host (hop : p.opcode? = some opcode) :
    (p.begun setup).host = Creating.count p.machine.world.host (p.creating? setup) := by
  have hstart := host_start setup p.inv (Instruction.decode opcode) (p.noted opcode)
  have hnoted : (p.noted opcode).world.host = p.machine.world.host := by
    rw [noted, Machine.final_note]
  have hunasked (h : p.asked? setup = none) : p.creating? setup = none := by
    rw [creating?, h]
    rfl
  rw [hnoted] at hstart
  rcases hs : Execute.start setup p.inv (Instruction.decode opcode) (p.noted opcode) with
    ⟨control | ⟨request, resolution⟩, m⟩ | ⟨e, m⟩
  · have ha : p.asked? setup = none := by
      rw [asked?, hop, Option.bind_some, hs]
    rw [Action.final_of_ok hs] at hstart
    simp only [hunasked ha, Creating.count, begun, hop, hs, hstart]
  · have ha : p.asked? setup = some (request, m.world) := by
      rw [asked?, hop, Option.bind_some, hs]
    rw [Action.final_of_ok hs] at hstart
    have hbegun : p.begun setup = (child setup p.inv request).final m.world := by
      simp only [begun, hop, hs]
    rw [hbegun]
    cases request with
    | create value init =>
      simp only [creating?_of_create ha, ← hstart]
      rfl
    | _ =>
      rw [creating?, ha, ← hstart]
      rfl
  · have ha : p.asked? setup = none := by
      rw [asked?, hop, Option.bind_some, hs]
    rw [Action.final_of_error hs] at hstart
    simp only [hunasked ha, Creating.count, begun, hop, hs, hstart]

end Point

/-- The creations among these moments, in the order in which they start. -/
def creations (setup : Setup) (course : List Moment) : List Creating :=
  course.filterMap fun x => x.started?.bind (Point.creating? setup)

theorem creations_starts_cons (setup : Setup) (p : Point) (rest : List Moment) :
    creations setup (.starts p :: rest) =
      (p.creating? setup).toList ++ creations setup rest := by
  unfold creations
  rw [List.filterMap_cons]
  cases hc : p.creating? setup <;> simp [Moment.started?, hc]

/-- The creations of one sender among these. -/
def madeBy (s : Address) (made : List Creating) : List Creating :=
  made.filter fun c => c.sender = s

/-- The table of nonces, told from the course. -/
theorem nonces_retold (setup : Setup) :
    Retold setup World.host fun nonces p => Creating.count nonces (p.creating? setup) where
  same h := h.host
  turn hop := Point.begun_host hop

/-- Creations that are numbered for each sender, from `next` on. -/
inductive Numbered : (next : Address → UInt64) → List Creating → Prop
  | nil (next : Address → UInt64) : Numbered next []
  | cons {next : Address → UInt64} {c : Creating} {rest : List Creating}
    (hn : c.nonce = next c.sender) (ha : c.address = Creation.address c.sender c.nonce)
    (hr : Numbered (fun a => if c.sender = a then c.nonce + 1 else next a) rest) :
    Numbered next (c :: rest)

/-- Whatever the table holds at first, the creations of a course are numbered from there on. -/
theorem numbered_of_tells {setup : Setup} {course : List Moment} {nonces nonces' : Nonces}
    (h : Retold.Tells setup World.host (fun nonces p => Creating.count nonces (p.creating? setup))
      course nonces nonces') : Numbered (nextNonce setup nonces) (creations setup course) := by
  induction course generalizing nonces with
  | nil => exact .nil _
  | cons x rest ih =>
    obtain ⟨hx, hrest⟩ := h
    have hr := ih hrest
    cases x with
    | ends p => exact hr
    | starts p =>
      have hhost : p.machine.world.host = nonces := hx
      rw [creations_starts_cons]
      simp only [Moment.retell] at hr
      cases hc : p.creating? setup with
      | none =>
        rw [hc] at hr
        exact hr
      | some c =>
        obtain ⟨-, -, hnonce, haddress⟩ := Point.creating?_eq_some hc
        rw [hhost] at hnonce
        rw [hc] at hr
        refine .cons hnonce haddress ?_
        have hnext : nextNonce setup (Creating.count nonces (some c)) =
            fun a => if c.sender = a then c.nonce + 1 else nextNonce setup nonces a :=
          funext fun a => nextNonce_insert setup nonces c.sender a (c.nonce + 1)
        rwa [hnext] at hr

namespace Numbered

variable {next : Address → UInt64} {made : List Creating}

/-- A sender's creation is as far from its first nonce as it is from its first creation. -/
theorem nonce_eq (h : Numbered next made) {s : Address} {k : Nat} {c : Creating}
    (hc : (madeBy s made)[k]? = some c) :
    c.nonce = next s + UInt64.ofNat k ∧ c.address = Creation.address s c.nonce := by
  induction h generalizing k with
  | nil => cases hc
  | @cons next first rest hn ha hr ih =>
    by_cases hs : first.sender = s
    · rw [madeBy, List.filter_cons_of_pos (by simpa using hs)] at hc
      cases k with
      | zero =>
        cases hc
        subst hs
        exact ⟨by simpa using hn, ha⟩
      | succ k =>
        obtain ⟨hk, haddress⟩ := ih hc
        refine ⟨?_, haddress⟩
        simp only [hs, hn, if_true] at hk
        rw [hk, UInt64.ofNat_add, UInt64.add_assoc]
        exact congrArg (next s + ·) (UInt64.add_comm 1 (UInt64.ofNat k))
    · rw [madeBy, List.filter_cons_of_neg (by simpa using hs)] at hc
      obtain ⟨hk, haddress⟩ := ih hc
      simp only [if_neg hs] at hk
      exact ⟨hk, haddress⟩

theorem toNat_nonce (h : Numbered next made) {s : Address} {k : Nat} {c : Creating}
    (hroom : (next s).toNat + (madeBy s made).length < UInt64.size)
    (hc : (madeBy s made)[k]? = some c) : c.nonce.toNat = (next s).toNat + k := by
  have hk := (List.getElem?_eq_some_iff.1 hc).1
  have hsize : UInt64.size = 2 ^ 64 := rfl
  rw [(h.nonce_eq hc).1, UInt64.toNat_add, UInt64.toNat_ofNat']
  omega

/-- With room for all of its numbers, no sender uses one twice. -/
theorem nodup (h : Numbered next made) (hroom : ∀ s,
      (next s).toNat + (madeBy s made).length < UInt64.size) :
    (made.map fun c => (c.sender, c.nonce)).Nodup := by
  have hsender (s : Address) :
      (madeBy s made).Pairwise fun c c' => c.nonce ≠ c'.nonce := by
    rw [List.pairwise_iff_getElem]
    intro i j hi hj hij he
    have hni := h.toNat_nonce (hroom s) (List.getElem?_eq_getElem hi)
    have hnj := h.toNat_nonce (hroom s) (List.getElem?_eq_getElem hj)
    rw [he] at hni
    omega
  rw [List.Nodup, List.pairwise_map, List.pairwise_iff_getElem]
  intro i j hi hj hij he
  obtain ⟨hs, hn⟩ := Prod.mk.inj he
  have hpair := List.pairwise_filter.1 (hsender made[j].sender)
  exact List.pairwise_iff_getElem.1 hpair i j hi hj hij (by simpa using hs) (by simp) hn

end Numbered

open Point

/-- In a run of a fresh table with room for the nonces of all its creations, the `k`-th creation of
an account takes the account's committed nonce plus `k`, and the address that goes with it, however
it ends and in whatever frames the others are; the frame of its init code, if it runs at all, has
that address. No two creations of the run have the same sender and nonce. -/
theorem creations_numbered (setup : Setup) (inv : Invocation) (m : Machine Nonces)
    (hfresh : m.world.host = ∅)
    (hroom : ∀ s, (setup.committed.nonce s).toNat + (madeBy s
      (creations setup ((start setup inv m).course setup))).length < UInt64.size) :
    let course := (start setup inv m).course setup
    (∀ s k c, (madeBy s (creations setup course))[k]? = some c →
      c.nonce.toNat = (setup.committed.nonce s).toNat + k ∧
      c.address = Creation.address s (setup.committed.nonce s + UInt64.ofNat k)) ∧
    (∀ p c q, .starts p ∈ course → p.creating? setup = some c → p.entered? setup = some q →
      c.sender = p.inv.address ∧ q.inv.address = c.address) ∧
    ((creations setup course).map fun c => (c.sender, c.nonce)).Nodup := by
  intro course
  have htells := (nonces_retold setup).tells (start setup inv m)
  have hhost : (start setup inv m).machine.world.host = ∅ := hfresh
  rw [hhost] at htells
  have hnext : nextNonce setup ∅ = setup.committed.nonce := funext (nextNonce_empty setup)
  have hnumbered : Numbered setup.committed.nonce (creations setup course) :=
    hnext ▸ numbered_of_tells htells
  refine ⟨fun s k c hc => ?_, fun p c q _ hc hq => ?_, hnumbered.nodup hroom⟩
  · obtain ⟨hnonce, haddress⟩ := hnumbered.nonce_eq hc
    exact ⟨hnumbered.toNat_nonce (hroom s) hc, hnonce ▸ haddress⟩
  · exact ⟨(creating?_eq_some hc).2.1, address_of_entered hc hq⟩

def fromNonceFive : Setup :=
  ⟨{ maxCallDepth := 2 }, {}, { Ledger.empty.committed with nonce := fun _ => 5 }⟩

def creatingTwice : Invocation :=
  ⟨⟨1⟩, .zero, 0, .ofBytes
    #[0x60, 1, 0x5f, 0x53, 0x60, 1, 0x5f, 0x5f, 0xf0, 0x5f, 0x5f, 0x5f, 0xf0], #[]⟩

/-- The creation that fails has taken a nonce all the same. -/
theorem creatingTwice_numbered :
    let made := creations fromNonceFive
      ((start fromNonceFive creatingTwice ⟨.fresh 64, freshWorld {}⟩).course fromNonceFive)
    made.map (·.address) = [Creation.address ⟨1⟩ 5, Creation.address ⟨1⟩ 6] ∧
      (made.map fun c => (c.sender, c.nonce)).Nodup := by
  intro made
  have hsenders : made.map Creating.sender = [⟨1⟩, ⟨1⟩] := by
    decide +kernel
  have hroom (s : Address) : (5 : UInt64).toNat + (madeBy s made).length < UInt64.size := by
    have hlength : made.length = 2 := by
      simpa using congrArg List.length hsenders
    have hle : (madeBy s made).length ≤ made.length := List.length_filter_le _ _
    have hsize : UInt64.size = 2 ^ 64 := rfl
    have hfive : (5 : UInt64).toNat = 5 := rfl
    omega
  obtain ⟨hnth, -, hnodup⟩ :=
    creations_numbered fromNonceFive creatingTwice ⟨.fresh 64, freshWorld {}⟩ rfl hroom
  refine ⟨?_, hnodup⟩
  change ∀ s k c, (madeBy s made)[k]? = some c → _ at hnth
  generalize made = l at hsenders hnth
  have hlength : l.length = 2 := by
    simpa using congrArg List.length hsenders
  obtain ⟨first, second, rfl⟩ := List.length_eq_two.1 hlength
  obtain ⟨h1, h2⟩ : first.sender = ⟨1⟩ ∧ second.sender = ⟨1⟩ := by simpa using hsenders
  have hboth : madeBy ⟨1⟩ [first, second] = [first, second] := by simp [madeBy, h1, h2]
  have hfirst := (hnth ⟨1⟩ 0 first (by rw [hboth]; rfl)).2
  have hsecond := (hnth ⟨1⟩ 1 second (by rw [hboth]; rfl)).2
  rw [List.map_cons, List.map_singleton, hfirst, hsecond]
  rfl

end SpeculativeEvm
