import SpeculativeEvm.Proofs.Execute.Raise
import SpeculativeEvm.Proofs.Execute.Request

/-! How instructions use the stack. Each takes a fixed number of words off it and puts a fixed
number in their place, in whatever order it pops, peeks and pokes, and never looks at what lies
below. A stack that is too short is noticed before anything else can go wrong: what is done beside
the stack, which may fault in its own way, is done when the stack is known to be long enough. -/

namespace SpeculativeEvm

variable {σ α β : Type} {low n take give : Nat}

namespace Fault

def ofStack : Fault → Bool
  | stackUnderflow | stackOverflow => true
  | _ => false

theorem ofRanges_not_ofStack : OfRanges fun e => e.ofStack = false := ⟨rfl, fun _ _ => rfl⟩

end Fault

namespace Machine

/-- What comes of taking `take` of the words off the stack and putting `give` words in their
place. -/
inductive Used (take give : Nat) (words : List Word) : EStateM.Result Fault (Machine σ) α → Prop
  | short {m : Machine σ} : words.length < take → Used take give words (.error .stackUnderflow m)
  | full {m : Machine σ} : take ≤ words.length → words.length = maxStackDepth → give = take + 1 →
    Used take give words (.error .stackOverflow m)
  | other {e : Fault} {m : Machine σ} : take ≤ words.length → e.ofStack = false →
    Used take give words (.error e m)
  | ok {a : α} {m : Machine σ} (top : List Word) : take ≤ words.length → top.length = give →
    m.frame.stack.words = top ++ words.drop take → m.frame.stack.depth ≤ maxStackDepth →
    Used take give words (.ok a m)

namespace Used

variable {words : List Word}

theorem underflow_iff {r : EStateM.Result Fault (Machine σ) α} (h : Used take give words r) :
    (∃ t, r = .error .stackUnderflow t) ↔ words.length < take := by
  cases h with
  | short h => exact iff_of_true ⟨_, rfl⟩ h
  | full htake | ok _ htake =>
    refine iff_of_false ?_ (Nat.not_lt.2 htake)
    rintro ⟨t, ht⟩
    cases ht
  | other htake he =>
    refine iff_of_false ?_ (Nat.not_lt.2 htake)
    rintro ⟨t, ht⟩
    cases ht
    cases he

theorem of_overflow {t : Machine σ}
    (h : Used take give words (.error .stackOverflow t : EStateM.Result _ _ α)) :
    words.length = maxStackDepth ∧ give = take + 1 := by
  cases h with
  | full _ hlen hgive => exact ⟨hlen, hgive⟩
  | other _ he => cases he

theorem of_ok {a : α} {t : Machine σ} (h : Used take give words (.ok a t)) :
    take ≤ words.length ∧ t.frame.stack.depth ≤ maxStackDepth ∧
      ∃ top : List Word, top.length = give ∧ t.frame.stack.words = top ++ words.drop take := by
  cases h with
  | ok top htake htop hwords hle => exact ⟨htake, hle, top, htop, hwords⟩

/-- More words can be counted as taken and put back, if they are there. -/
theorem deepen {r : EStateM.Result Fault (Machine σ) α} (k : Nat)
    (hr : Used take give words r) (hk : take + k ≤ words.length) :
    Used (take + k) (give + k) words r := by
  cases hr with
  | short h => exact .short (Nat.lt_of_lt_of_le h (Nat.le_add_right take k))
  | full htake hlen hgive => exact .full hk hlen (by omega)
  | other htake he => exact .other hk he
  | ok top htake htop hwords hle =>
    refine .ok (top ++ (words.drop take).take k) hk ?_ ?_ hle
    · rw [List.length_append, List.length_take, List.length_drop]
      omega
    · rw [hwords, ← List.drop_drop, List.append_assoc, List.take_append_drop]

/-- What is used after `n` words have been taken comes on top of these. -/
theorem after_taking {rest : List Word} {k : Nat}
    {r : EStateM.Result Fault (Machine σ) α} (hdepth : words.length ≤ maxStackDepth)
    (hn : n ≤ words.length) (hrest : rest = words.drop n) (hr : Used k give rest r) :
    Used (n + k) give words r := by
  have hlen : rest.length = words.length - n := by rw [hrest, List.length_drop]
  cases hr with
  | short h => exact .short (by omega)
  | full htake hfull hgive => exact .full (by omega) (by omega) (by omega)
  | other htake he => exact .other (by omega) he
  | ok top htake htop hwords hle =>
    refine .ok top (by omega) htop ?_ hle
    rw [hwords, hrest, List.drop_drop]

end Used

inductive Taken (n : Nat) (words : List Word) : EStateM.Result Fault (Machine σ) α → Prop
  | short {m : Machine σ} : words.length < n → Taken n words (.error .stackUnderflow m)
  | ok {a : α} {m : Machine σ} : n ≤ words.length → m.frame.stack.words = words.drop n →
    Taken n words (.ok a m)

def SameStack (m m' : Machine σ) : Prop := m'.frame.stack = m.frame.stack

instance : IsPreorder (Machine σ) SameStack where
  refl _ := rfl
  trans _ _ _ h h' := h'.trans h

end Machine

namespace Action

open Machine

/-- On any stack of at least `low` words, the action takes `take` words and puts `give` words in
their place. -/
def Uses (low take give : Nat) (x : Action (Machine σ) α) : Prop :=
  ∀ m, low ≤ m.frame.stack.depth → m.frame.stack.depth ≤ maxStackDepth →
    Used take give m.frame.stack.words (x m)

def Takes (n : Nat) (x : Action (Machine σ) α) : Prop := ∀ m, Taken n m.frame.stack.words (x m)

structure Aside (x : Action (Machine σ) α) : Prop where
  keeps : x.Keeps SameStack
  raises : x.Raises fun e => e.ofStack = false

namespace Aside

variable {x : Action (Machine σ) α} {f : α → Action (Machine σ) β}

theorem of_ok (h : ∀ m, ∃ a m', x m = .ok a m' ∧ m'.frame.stack = m.frame.stack) : x.Aside where
  keeps m := by
    obtain ⟨a, m', ha, hm⟩ := h m
    rwa [final_of_ok ha]
  raises := .of_ok fun m => by
    obtain ⟨a, m', ha, -⟩ := h m
    exact ⟨a, m', ha⟩

protected theorem pure (a : α) : (pure a : Action (Machine σ) α).Aside := ⟨.pure a, .pure a⟩

protected theorem throw {e : Fault} (he : e.ofStack = false) :
    (throw e : Action (Machine σ) α).Aside := ⟨.throw e, .throw he⟩

protected theorem get : (get : Action (Machine σ) (Machine σ)).Aside := ⟨.get, .get⟩

theorem pc : (pc : Action (Machine σ) Nat).Aside := of_ok fun _ => ⟨_, _, rfl, rfl⟩

protected theorem bind (hx : x.Aside) (hf : ∀ a, (f a).Aside) : (x >>= f).Aside :=
  ⟨.bind hx.keeps fun a => (hf a).keeps, .bind hx.raises fun a => (hf a).raises⟩

theorem check {r : Except Fault α} (h : ∀ e, r = .error e → e.ofStack = false) :
    (check r : Action (Machine σ) α).Aside := by
  refine ⟨fun m => ?_, check_raises h⟩
  rw [final_check]
  rfl

theorem onMemory {act : Action Memory α} (h : act.Raises fun e => e.ofStack = false) :
    (onMemory act : Action (Machine σ) α).Aside := by
  refine ⟨fun m => ?_, onMemory_raises h⟩
  rw [final_onMemory]
  rfl

theorem onRun (f : Speculation → Speculation) : (onRun f : Action (Machine σ) Unit).Aside :=
  of_ok fun _ => ⟨_, _, rfl, rfl⟩

theorem readRun (f : Speculation → α) : (readRun f : Action (Machine σ) α).Aside :=
  of_ok fun _ => ⟨_, _, rfl, rfl⟩

theorem note (event : Machine σ → Event) : (note event).Aside :=
  of_ok fun m => ⟨_, _, note_apply m event, rfl⟩

theorem setPc (n : Nat) : (setPc n : Action (Machine σ) Unit).Aside :=
  of_ok fun _ => ⟨_, _, rfl, rfl⟩

theorem setOutput (output : Bytes) : (setOutput output : Action (Machine σ) Unit).Aside :=
  of_ok fun _ => ⟨_, _, rfl, rfl⟩

theorem stack_eq (hx : x.Aside) {m m' : Machine σ} {a : α} (h : x m = .ok a m') :
    m'.frame.stack = m.frame.stack := by
  rw [← final_of_ok h]
  exact hx.keeps m

theorem uses (hx : x.Aside) : x.Uses low 0 0 := by
  intro m _ hdepth
  rcases hr : x m with ⟨a, m'⟩ | ⟨e, m'⟩
  · have hstack := hx.stack_eq hr
    refine .ok [] (Nat.zero_le _) rfl ?_ ?_
    · rw [hstack]
      rfl
    · rwa [hstack]
  · exact .other (Nat.zero_le _) (hx.raises m e m' hr)

end Aside

namespace Uses

variable {x : Action (Machine σ) α} {f : α → Action (Machine σ) β}

/-- What is done aside may fault in its own way, so the stack must be long enough by then. -/
theorem aside_bind (hx : x.Aside) (hle : take ≤ low) (hf : ∀ a, (f a).Uses low take give) :
    (x >>= f).Uses low take give := by
  intro m hlow hdepth
  rcases hr : x m with ⟨a, m'⟩ | ⟨e, m'⟩
  · rw [← hx.stack_eq hr] at hlow hdepth ⊢
    rw [bind_of_ok hr]
    exact hf a m' hlow hdepth
  · rw [bind_of_error hr]
    exact .other (Nat.le_trans hle hlow) (hx.raises m e m' hr)

theorem bind_aside (hx : x.Uses low take give) (hf : ∀ a, (f a).Aside) :
    (x >>= f).Uses low take give := by
  intro m hlow hdepth
  have hused := hx m hlow hdepth
  rcases hr : x m with ⟨a, m'⟩ | ⟨e, m'⟩
  · rw [bind_of_ok hr]
    rw [hr] at hused
    obtain ⟨htake, hle, top, htop, hwords⟩ := hused.of_ok
    rcases hr' : f a m' with ⟨b, m''⟩ | ⟨e, m''⟩
    · rw [← (hf a).stack_eq hr'] at hwords hle
      exact .ok top htake htop hwords hle
    · exact .other htake ((hf a).raises m' e m'' hr')
  · rw [bind_of_error hr]
    rw [hr] at hused
    cases hused with
    | short h => exact .short h
    | full htake hlen hgive => exact .full htake hlen hgive
    | other htake he => exact .other htake he

theorem take_bind (k : Nat) (hx : x.Takes n) (hf : ∀ a, (f a).Uses 0 k give) :
    (x >>= f).Uses low (n + k) give := by
  intro m _ hdepth
  have htaken := hx m
  rcases hr : x m with ⟨a, m'⟩ | ⟨e, m'⟩
  · rw [bind_of_ok hr]
    rw [hr] at htaken
    cases htaken with
    | ok hn hwords =>
      have hle : m'.frame.stack.depth ≤ maxStackDepth := by
        rw [Stack.depth, hwords, List.length_drop]
        exact Nat.le_trans (Nat.sub_le _ n) hdepth
      exact .after_taking hdepth hn hwords (hf a m' (Nat.zero_le _) hle)
  · rw [bind_of_error hr]
    rw [hr] at htaken
    cases htaken with
    | short h => exact .short (Nat.lt_of_lt_of_le h (Nat.le_add_right n k))

end Uses

namespace Takes

theorem map {f : α → β} {x : Action (Machine σ) α} (hx : x.Takes n) : (f <$> x).Takes n := by
  intro m
  have htaken := hx m
  rw [map_apply]
  generalize x m = r at htaken
  cases htaken with
  | short h => exact .short h
  | ok hn hwords => exact .ok hn hwords

protected theorem bind {k : Nat} {f : α → Action (Machine σ) β} {x : Action (Machine σ) α}
    (hx : x.Takes n) (hf : ∀ a, (f a).Takes k) : (x >>= f).Takes (n + k) := by
  intro m
  have htaken := hx m
  rcases hr : x m with ⟨a, m'⟩ | ⟨e, m'⟩
  · rw [bind_of_ok hr]
    rw [hr] at htaken
    cases htaken with
    | ok hn hwords =>
      have hlen : m'.frame.stack.words.length = m.frame.stack.words.length - n := by
        rw [hwords, List.length_drop]
      have htaken' := hf a m'
      generalize f a m' = r at htaken'
      cases htaken' with
      | short h => exact .short (by omega)
      | ok hk hwords' =>
        refine .ok (by omega) ?_
        rw [hwords', hwords, List.drop_drop]
  · rw [bind_of_error hr]
    rw [hr] at htaken
    cases htaken with
    | short h => exact .short (by omega)

end Takes

end Action

namespace Machine

open SpeculativeEvm.Action

theorem pop_takes : (onStack Stack.pop : Action (Machine σ) Word).Takes 1 := by
  intro ⟨⟨pc, ⟨words⟩, memory, output⟩, world⟩
  cases words with
  | nil => exact .short Nat.zero_lt_one
  | cons w rest => exact .ok (Nat.le_add_left 1 _) rfl

theorem popN_takes (n : Nat) : (onStack (Stack.popN n) : Action (Machine σ) _).Takes n := by
  intro ⟨⟨pc, ⟨words⟩, memory, output⟩, world⟩
  have hlen : (words.take n).length = min n words.length := List.length_take
  by_cases hn : (words.take n).length = n
  · simp only [onStack, Stack.popN, dif_pos hn]
    exact .ok (show n ≤ words.length by omega) rfl
  · simp only [onStack, Stack.popN, dif_neg hn]
    exact .short (show words.length < n by omega)

/-- A word that is looked at is there for what follows. -/
theorem peek_bind {f : Word → Action (Machine σ) α} (hf : ∀ w, (f w).Uses 1 1 give) :
    (onStack Stack.peek >>= f).Uses low 1 give := by
  intro m _ hdepth
  rw [onStack_bind]
  cases hw : m.frame.stack.words with
  | nil =>
    simp only [Stack.peek, hw]
    exact .short Nat.zero_lt_one
  | cons w rest =>
    have hused := hf w m (show 1 ≤ m.frame.stack.words.length by simp [hw]) hdepth
    simp only [Stack.peek, hw]
    rwa [hw] at hused

theorem push_uses (w : Word) : (onStack (Stack.push w) : Action (Machine σ) Unit).Uses low 0 1 := by
  intro ⟨⟨pc, ⟨words⟩, memory, output⟩, world⟩ _ hdepth
  by_cases h : words.length < maxStackDepth
  · have hpush : Stack.push w ⟨words⟩ = .ok () ⟨w :: words⟩ := if_pos h
    simp only [onStack, hpush]
    exact .ok [w] (Nat.zero_le _) rfl rfl h
  · have hpush : Stack.push w ⟨words⟩ = .error .stackOverflow ⟨words⟩ := if_neg h
    simp only [onStack, hpush]
    exact .full (Nat.zero_le _) (Nat.le_antisymm hdepth (Nat.not_lt.1 h)) rfl

theorem poke_uses (w : Word) : (onStack (Stack.poke w) : Action (Machine σ) Unit).Uses low 1 1 := by
  intro ⟨⟨pc, ⟨words⟩, memory, output⟩, world⟩ _ hdepth
  cases words with
  | nil => exact .short Nat.zero_lt_one
  | cons top rest => exact .ok [w] (Nat.le_add_left 1 _) rfl rfl hdepth

theorem swap_uses {place : Nat} (hp : 0 < place) :
    (onStack (Stack.swap place) : Action (Machine σ) Unit).Uses low (place + 1) (place + 1) := by
  obtain ⟨k, rfl⟩ := Nat.exists_eq_add_one.2 hp
  intro ⟨⟨pc, ⟨words⟩, memory, output⟩, world⟩ _ hdepth
  cases words with
  | nil => exact .short (Nat.zero_lt_succ _)
  | cons top rest =>
    cases hk : rest[k]? with
    | none =>
      have hlen := List.getElem?_eq_none_iff.1 hk
      simp only [onStack, Stack.swap, hk]
      exact .short (by simp only [List.length_cons]; omega)
    | some w =>
      obtain ⟨hlt, -⟩ := List.getElem?_eq_some_iff.1 hk
      simp only [onStack, Stack.swap, hk]
      refine .ok (w :: (rest.set k top).take (k + 1)) ?_ ?_ ?_ ?_
      · simp only [List.length_cons]
        omega
      · simp only [List.length_cons, List.length_take, List.length_set]
        omega
      · have hdrop : (rest.set k top).drop (k + 1) = rest.drop (k + 1) :=
          List.drop_set_of_lt (Nat.lt_succ_self k)
        simp only [List.drop_succ_cons, List.cons_append, ← hdrop, List.take_append_drop]
      · simpa only [Stack.depth, List.length_cons, List.length_set] using hdepth

theorem dup_uses {place : Nat} (hp : 0 < place) :
    (onStack (Stack.dup place) : Action (Machine σ) Unit).Uses low place (place + 1) := by
  obtain ⟨k, rfl⟩ := Nat.exists_eq_add_one.2 hp
  intro ⟨⟨pc, ⟨words⟩, memory, output⟩, world⟩ hlow hdepth
  cases hk : words[k]? with
  | none =>
    have hlen := List.getElem?_eq_none_iff.1 hk
    simp only [onStack, Stack.dup, hk]
    exact .short (Nat.lt_succ_of_le hlen)
  | some w =>
    obtain ⟨hlt, -⟩ := List.getElem?_eq_some_iff.1 hk
    have hpush : (onStack (Stack.push w) : Action (Machine σ) Unit).Uses low 0 1 := push_uses w
    have hused := (hpush _ hlow hdepth).deepen (k + 1) (show 0 + (k + 1) ≤ words.length by omega)
    rw [Nat.zero_add, Nat.add_comm 1] at hused
    simp only [onStack, Stack.dup, hk]
    exact hused

end Machine

namespace Instruction

/-- The number of words an instruction takes off the stack. -/
def takes : Instruction → Nat
  | unary _ | account _ | blockHash | callDataLoad | pop | mload | sload | jump | selfDestruct => 1
  | binary _ | keccak | mstore | mstore8 | sstore | jumpIf | ret | revert => 2
  | ternary _ | copy _ | returnDataCopy | create => 3
  | extCodeCopy | saltedCreate => 4
  | dup place => place
  | swap place => place + 1
  | log topics => topics + 2
  | call kind => kind.arity
  | stop | jumpDest | invalid | selfBalance | quantity _ | push _ | undefined _ => 0

/-- The number of words an instruction puts in the place of those it takes. Calls and creations give
their result only if the run has not aborted. -/
def gives (aborted : Bool) : Instruction → Nat
  | unary _ | binary _ | ternary _ | keccak | quantity _ | account _ | selfBalance => 1
  | blockHash | callDataLoad | mload | sload | push _ => 1
  | dup place => place + 1
  | swap place => place + 1
  | call _ | create | saltedCreate => if aborted then 0 else 1
  | _ => 0

/-- An instruction that gives one word more than it takes does so whether or not the run has
aborted. -/
theorem gives_eq_of_grows {i : Instruction} {aborted : Bool} (h : i.gives aborted = i.takes + 1)
    (aborted' : Bool) : i.gives aborted' = i.takes + 1 := by
  have hne (k : Nat) : (if aborted then 0 else 1) ≠ k + 2 := by
    split <;> omega
  cases i with
  | call kind => cases kind <;> exact absurd h (hne _)
  | create | saltedCreate => exact absurd h (hne _)
  | _ => exact h

/-- A word that is duplicated or exchanged has a place to be found at. -/
def Placed : Instruction → Prop
  | dup place | swap place => 0 < place
  | _ => True

theorem placed_ofByte (b : UInt8) : (ofByte b).Placed := by
  unfold ofByte
  split <;> trivial

theorem placed_decode (b : UInt8) : (decode b).Placed := by
  unfold decode
  split
  · trivial
  split
  · next h => exact Nat.sub_pos_of_lt (UInt8.le_iff_toNat_le.1 h.1)
  split
  · next h => exact Nat.sub_pos_of_lt (UInt8.le_iff_toNat_le.1 h.1)
  split
  · trivial
  · exact placed_ofByte b

end Instruction

namespace Execute

open Machine SpeculativeEvm.Action

theorem pushWord_uses (w : Word) : (pushWord w : Action (Machine σ) Control).Uses low 0 1 :=
  .bind_aside (push_uses w) fun _ => .pure _

theorem poke_next_uses (w : Word) :
    (onStack (Stack.poke w) >>= fun _ => pure .next : Action (Machine σ) Control).Uses low 1 1 :=
  .bind_aside (poke_uses w) fun _ => .pure _

theorem drop_takes (n : Nat) : (drop n : Action (Machine σ) Unit).Takes n := by
  induction n with
  | zero => exact fun m => .ok (Nat.zero_le _) rfl
  | succ n ih =>
    have h : (drop (n + 1) : Action (Machine σ) Unit).Takes (1 + n) :=
      pop_takes.map.bind fun _ => ih
    rwa [Nat.add_comm 1 n] at h

theorem alone_uses {act : Action (Machine σ) Control} (h : act.Uses low take give) :
    (alone act).Uses low take give :=
  .bind_aside h fun _ => .pure _

theorem span_aside (offset size : Word) :
    (check (spanOf offset size) : Action (Machine σ) Span).Aside :=
  .check fun _ => of_spanOf Fault.ofRanges_not_ofStack

theorem index_aside (w : Word) : (check (indexOf w) : Action (Machine σ) Nat).Aside :=
  .check fun _ => of_indexOf Fault.ofRanges_not_ofStack

theorem memoryGet_aside (offset size : Nat) :
    (onMemory (Memory.get offset size) : Action (Machine σ) Bytes).Aside :=
  .onMemory (Memory.get_raises Fault.ofRanges_not_ofStack offset size)

theorem memorySet_aside (offset size : Nat) (value : Bytes) :
    (onMemory (Memory.set offset size value) : Action (Machine σ) Unit).Aside :=
  .onMemory (Memory.set_raises Fault.ofRanges_not_ofStack offset size value)

theorem copyToMemory_aside (data : Bytes) (target : Span) (first : Word) :
    (copyToMemory data target first : Action (Machine σ) Unit).Aside :=
  .onMemory (Memory.copyFrom_raises Fault.ofRanges_not_ofStack _ _ _ _)

theorem beginRequest_aside (op : String) (target : Option Address) :
    (beginRequest op target : Action (Machine σ) Unit).Aside :=
  .bind (.onRun _) fun _ => .note _

theorem askCall_aside (kind : CallKind) (target : Address)
    (inOffset inSize outOffset outSize : Word) (request : Bytes → Request) :
    (askCall kind target (spanOf inOffset inSize) (spanOf outOffset outSize) request :
      Action (Machine σ) Progress).Aside :=
  .bind (span_aside _ _) fun _ => .bind (span_aside _ _) fun _ =>
    .bind (beginRequest_aside _ _) fun _ => .bind (memoryGet_aside _ _) fun _ => .pure _

theorem askCreate_aside (op : String) (offset size : Word) (request : Bytes → Request) :
    (askCreate op (spanOf offset size) request : Action (Machine σ) Progress).Aside :=
  .bind (span_aside _ _) fun _ => .bind (memoryGet_aside _ _) fun _ =>
    .bind (beginRequest_aside _ _) fun _ => .pure _

theorem call_uses (kind : CallKind) :
    (call kind : Action (Machine σ) Progress).Uses low kind.arity 0 := by
  cases kind with
  | call | callCode =>
    exact .take_bind 0 (popN_takes 7) fun ⟨⟨[_, _, _, _, _, _, _]⟩, _⟩ =>
      (askCall_aside _ _ _ _ _ _ _).uses
  | delegateCall | staticCall =>
    exact .take_bind 0 (popN_takes 6) fun ⟨⟨[_, _, _, _, _, _]⟩, _⟩ =>
      (askCall_aside _ _ _ _ _ _ _).uses

theorem giveBack_uses : (giveBack : Action (Machine σ) Control).Uses low 2 0 := by
  refine .take_bind 0 (popN_takes 2) fun ⟨⟨[_, _]⟩, _⟩ => Aside.uses ?_
  refine .bind (span_aside _ _) fun _ => .bind (memoryGet_aside _ _) fun output => ?_
  split
  · exact .bind (.onRun _) fun _ => .bind (.setOutput _) fun _ => .pure _
  · exact .bind (.setOutput _) fun _ => .pure _

/-- What an instruction does to the stack by itself, which for a call or creation is to take its
operands. -/
theorem start_uses (setup : Setup) (inv : Invocation) {i : Instruction} (hi : i.Placed) :
    (start setup inv i : Action (Machine σ) Progress).Uses 0 i.takes (i.gives true) := by
  cases i with
  | stop | jumpDest => exact (Aside.pure _).uses
  | undefined byte => exact (Aside.throw rfl).uses
  | unary | blockHash | callDataLoad => exact alone_uses (peek_bind fun _ => poke_next_uses _)
  | binary => exact alone_uses (.take_bind 1 pop_takes fun _ => peek_bind fun _ => poke_next_uses _)
  | ternary =>
    exact alone_uses (.take_bind 2 pop_takes fun _ => .take_bind 1 pop_takes fun _ =>
      peek_bind fun _ => poke_next_uses _)
  | keccak =>
    exact alone_uses (.take_bind 1 pop_takes fun _ => peek_bind fun _ =>
      .aside_bind (span_aside _ _) (Nat.le_refl 1) fun _ =>
        .aside_bind (memoryGet_aside _ _) (Nat.le_refl 1) fun _ => poke_next_uses _)
  | quantity q =>
    refine alone_uses (.aside_bind .get (Nat.zero_le _) fun m =>
      .aside_bind (.check fun e he => ?_) (Nat.zero_le _) fun _ => pushWord_uses _)
    have hfatal := of_quantityOf he
    cases e with
    | fatal => rfl
    | _ => cases hfatal
  | copy =>
    exact alone_uses (.take_bind 0 (popN_takes 3) fun ⟨⟨[_, _, _]⟩, _⟩ =>
      (Aside.bind (span_aside _ _) fun _ => .bind (copyToMemory_aside _ _ _) fun _ =>
        .pure _).uses)
  | returnDataCopy =>
    exact alone_uses (.take_bind 0 (popN_takes 3).map fun _ => (Aside.pure _).uses)
  | pop => exact alone_uses (.take_bind 0 pop_takes.map fun _ => (Aside.pure _).uses)
  | mload =>
    exact alone_uses (peek_bind fun _ => .aside_bind (index_aside _) (Nat.le_refl 1) fun _ =>
      .aside_bind (.onMemory (Memory.load_raises Fault.ofRanges_not_ofStack _)) (Nat.le_refl 1)
        fun _ => poke_next_uses _)
  | mstore | mstore8 =>
    exact alone_uses (.take_bind 0 (popN_takes 2) fun ⟨⟨[_, _]⟩, _⟩ =>
      (Aside.bind (index_aside _) fun _ => .bind (memorySet_aside _ _ _) fun _ => .pure _).uses)
  | jump => exact alone_uses (.take_bind 0 pop_takes fun _ => (Aside.pure _).uses)
  | jumpIf =>
    exact alone_uses (.take_bind 0 (popN_takes 2) fun ⟨⟨[_, _]⟩, _⟩ => (Aside.pure _).uses)
  | push =>
    exact alone_uses (.aside_bind .pc (Nat.zero_le _) fun _ =>
      .bind_aside (push_uses _) fun _ => .bind (.setPc _) fun _ => .pure _)
  | dup place => exact alone_uses (.bind_aside (dup_uses hi) fun _ => .pure _)
  | swap place => exact alone_uses (.bind_aside (swap_uses hi) fun _ => .pure _)
  | log topics => exact alone_uses (.take_bind 0 (drop_takes _) fun _ => (Aside.pure _).uses)
  | account =>
    exact alone_uses (peek_bind fun _ => .aside_bind .get (Nat.le_refl 1) fun _ =>
      .bind_aside (poke_uses _) fun _ => .bind (.onRun _) fun _ => .pure _)
  | selfBalance =>
    exact alone_uses (.aside_bind (.readRun _) (Nat.zero_le _) fun _ =>
      .aside_bind (.onRun _) (Nat.zero_le _) fun _ => pushWord_uses _)
  | extCodeCopy =>
    exact alone_uses (.take_bind 0 (popN_takes 4) fun ⟨⟨[_, _, _, _]⟩, _⟩ =>
      (Aside.bind (span_aside _ _) fun _ => .bind (copyToMemory_aside _ _ _) fun _ =>
        .bind (.onRun _) fun _ => .pure _).uses)
  | sload =>
    exact alone_uses (peek_bind fun _ => .aside_bind (.readRun _) (Nat.le_refl 1) fun _ =>
      .bind_aside (poke_uses _) fun _ => .bind (.onRun _) fun _ => .pure _)
  | sstore =>
    exact alone_uses (.take_bind 0 (popN_takes 2) fun ⟨⟨[_, _]⟩, _⟩ =>
      (Aside.bind (.note _) fun _ => .bind (.onRun _) fun _ => .bind (.onRun _) fun _ =>
        .pure _).uses)
  | invalid => exact alone_uses (Aside.bind (.onRun _) fun _ => .pure _).uses
  | selfDestruct =>
    exact alone_uses (.take_bind 0 pop_takes fun _ => (Aside.bind (.readRun _) fun _ =>
      .bind (.onRun _) fun _ => .bind (.onRun _) fun _ => .bind (.onRun _) fun _ =>
        .bind (.onRun _) fun _ => .bind (.note _) fun _ => .pure _).uses)
  | ret | revert => exact alone_uses giveBack_uses
  | call kind => exact call_uses kind
  | create =>
    exact .take_bind 0 (popN_takes 3) fun ⟨⟨[_, _, _]⟩, _⟩ => (askCreate_aside _ _ _ _).uses
  | saltedCreate =>
    exact .take_bind 0 (popN_takes 4) fun ⟨⟨[_, _, _, _]⟩, _⟩ => (askCreate_aside _ _ _ _).uses

/-- How a call or creation leaves the stack it was resolved on: its result is put there unless the
run has aborted. -/
theorem resolve_used (resolution : Resolution) {m : Machine σ}
    (hdepth : m.frame.stack.depth ≤ maxStackDepth) :
    Used 0 (if ((resolve resolution).final m).world.run.outcome.aborted then 0 else 1)
      m.frame.stack.words (resolve resolution m) := by
  have hnone {w : World σ} : Used (α := Control) 0 0 m.frame.stack.words (.ok .halt ⟨m.frame, w⟩) :=
    .ok [] (Nat.zero_le _) rfl rfl hdepth
  rcases ha : m.world.run.outcome.aborted with - | -
  · have hr := resolve_of_not_aborted ha resolution
    rcases resolution with ⟨op, output⟩ | -
    · by_cases hp : ∃ payload, m.world.run.payloads (m.world.run.level + 1) = [payload]
      · obtain ⟨payload, hp⟩ := hp
        have hrun := run_resolveCall_of_singleton op output hp
        obtain ⟨journal, he⟩ := resolveCall_of_singleton op output hp
        rw [Action.final, hr, ← Action.final, hrun, ha]
        simp only [he]
        exact Uses.aside_bind (memorySet_aside _ _ _) (Nat.zero_le _) (fun _ => pushWord_uses 1)
          ⟨m.frame, ⟨m.world.run, m.world.host, journal⟩⟩ (Nat.zero_le _) hdepth
      · obtain ⟨journal, he⟩ := resolveCall_of_ne_singleton op output (not_exists.1 hp)
        rw [Action.final, hr]
        simp only [he]
        exact hnone
    · have hrun := run_resolveCreate m
      obtain ⟨journal, he⟩ := resolveCreate_apply m
      have huses (w : Word) : (pushWord w : Action (Machine σ) Control).Uses 0 0 1 :=
        pushWord_uses w
      rw [Action.final, hr, ← Action.final, hrun, ha]
      simp only [he]
      exact huses _ ⟨m.frame, ⟨m.world.run, m.world.host, journal⟩⟩ (Nat.zero_le _) hdepth
  · rw [Action.final, resolve_of_aborted ha]
    simp only [ha]
    exact hnone

/-- An instruction that needs no host gives the same whether or not the run has aborted. -/
theorem gives_of_done {setup : Setup} {inv : Invocation} {i : Instruction} {m m' : Machine σ}
    {control : Control} (h : start setup inv i m = .ok (.done control) m') (aborted : Bool) :
    i.gives aborted = i.gives true := by
  have hask {P : Request → Resolution → Prop} {n : Nat}
      {r : EStateM.Result Fault (Machine σ) Progress} (hr : Requested P n m r) :
      r ≠ .ok (.done control) m' := by
    rintro rfl
    cases hr
  cases i with
  | call kind => exact absurd h (hask (call_requested kind m))
  | create => exact absurd h (hask (create_requested m))
  | saltedCreate => exact absurd h (hask (saltedCreate_requested m))
  | _ => rfl

theorem gives_of_asks {i : Instruction} {request : Request} {resolution : Resolution}
    (h : i.Asks request resolution) (aborted : Bool) :
    i.gives aborted = if aborted then 0 else 1 := by
  cases i with
  | call | create | saltedCreate => rfl
  | _ => cases h

/-- What a call or creation does to the stack once its operands have been taken. -/
theorem answer_used {host : Host σ} {inv : Invocation} {request : Request}
    (hh : (host inv request).Raises fun e => e.ofStack = false) (resolution : Resolution)
    {m : Machine σ} (hdepth : m.frame.stack.depth ≤ maxStackDepth) :
    let answer := onWorld (host inv request) >>= fun _ => resolve resolution
    Used 0 (if (answer.final m).world.run.outcome.aborted then 0 else 1) m.frame.stack.words
      (answer m) := by
  intro answer
  rcases hw : host inv request m.world with ⟨u, w⟩ | ⟨e, w⟩
  · have hanswer : answer m = resolve resolution ⟨m.frame, w⟩ := by
      simp only [answer, onWorld_bind, hw]
    rw [Action.final, hanswer, ← Action.final]
    exact resolve_used resolution (m := ⟨m.frame, w⟩) hdepth
  · have hanswer : answer m = .error e ⟨m.frame, w⟩ := by
      simp only [answer, onWorld_bind, hw]
    rw [hanswer]
    exact .other (Nat.zero_le _) (hh _ e w hw)

/-- What every instruction does to the stack, if the host does not use the faults of the stack. -/
theorem execute_used (setup : Setup) {host : Host σ} (inv : Invocation) {i : Instruction}
    (hh : ∀ inv request, (host inv request).Raises fun e => e.ofStack = false) (hi : i.Placed)
    {m : Machine σ} (hdepth : m.frame.stack.depth ≤ maxStackDepth) :
    Used i.takes
      (i.gives ((SpeculativeEvm.execute setup host inv i).final m).world.run.outcome.aborted)
      m.frame.stack.words (SpeculativeEvm.execute setup host inv i m) := by
  have hstart := start_uses setup inv hi m (Nat.zero_le _) hdepth
  rcases hs : start setup inv i m with ⟨progress, m₁⟩ | ⟨e, m₁⟩
  · rw [hs] at hstart
    cases progress with
    | done control =>
      have he : SpeculativeEvm.execute setup host inv i m = .ok control m₁ := Action.bind_of_ok hs
      rw [he, gives_of_done hs]
      obtain ⟨htake, hle, top, htop, hwords⟩ := hstart.of_ok
      exact .ok top htake htop hwords hle
    | ask request resolution =>
      obtain ⟨hasks, -⟩ := start_ask setup inv hs
      have he : SpeculativeEvm.execute setup host inv i m =
          (onWorld (host inv request) >>= fun _ => resolve resolution) m₁ := Action.bind_of_ok hs
      rw [gives_of_asks hasks] at hstart ⊢
      rw [Action.final, he, ← Action.final]
      obtain ⟨htake, hle, top, htop, hwords⟩ := hstart.of_ok
      rw [List.length_eq_zero_iff.1 htop, List.nil_append] at hwords
      exact (answer_used (hh inv request) resolution hle).after_taking hdepth htake hwords
  · have he : SpeculativeEvm.execute setup host inv i m = .error e m₁ := Action.bind_of_error hs
    rw [hs] at hstart
    rw [he]
    cases hstart with
    | short h => exact .short h
    | full htake hlen hgive => exact .full htake hlen (Instruction.gives_eq_of_grows hgive _)
    | other htake he => exact .other htake he

end Execute

end SpeculativeEvm
