import Mathlib.Data.List.Forall2
import Mathlib.Data.List.Nodup
import SpeculativeEvm.StateFile

/-! The order in which the entries of a file of committed accounts are taken. Addresses are read
before they are keys, so that of each there is one entry and their order does not matter. Slots are
kept as texts, two texts can be of one slot, and then the later of them counts: exactly where the
texts give one slot two values, the order decides which ledger the file describes. -/

namespace SpeculativeEvm

section Lists

variable {α β : Type}

theorem mapM_eq_ok {ε : Type} {f : α → Except ε β} {g : α → β} {l : List α}
    (h : ∀ a ∈ l, f a = .ok (g a)) : l.mapM f = .ok (l.map g) := by
  induction l with
  | nil => rfl
  | cons a l ih =>
    rw [List.mapM_cons, h a List.mem_cons_self, ih fun b hb => h b (List.mem_cons_of_mem a hb)]
    rfl

theorem exists_mem_of_forall₂ {R : α → β → Prop} {l : List α} {l' : List β}
    (h : List.Forall₂ R l l') {a : α} (ha : a ∈ l) : ∃ b ∈ l', R a b := by
  induction h with
  | nil => cases ha
  | cons hab _ ih =>
    rcases List.mem_cons.1 ha with rfl | ha
    · exact ⟨_, List.mem_cons_self, hab⟩
    · obtain ⟨b, hb, hab⟩ := ih ha
      exact ⟨b, List.mem_cons_of_mem _ hb, hab⟩

end Lists

section Entered

variable {κ ν : Type} [DecidableEq κ] [Ord κ] [Std.TransOrd κ] [Std.LawfulEqOrd κ]

def entered (m : Std.ExtTreeMap κ ν) (es : List (κ × ν)) : Std.ExtTreeMap κ ν :=
  es.foldl (fun m e => m.insert e.1 e.2) m

variable {m : Std.ExtTreeMap κ ν} {es : List (κ × ν)} {k : κ} {v : ν}

omit [DecidableEq κ] in
theorem getElem?_entered_concat (m : Std.ExtTreeMap κ ν) (es : List (κ × ν)) (e : κ × ν) :
    (entered m (es ++ [e]))[e.1]? = some e.2 := by
  simp [entered]

/-- What is found was put in or was there. -/
theorem mem_of_getElem?_entered (h : (entered m es)[k]? = some v) :
    (k, v) ∈ es ∨ m[k]? = some v := by
  induction es generalizing m with
  | nil => exact .inr h
  | cons e es ih =>
    rcases ih h with hmem | hm
    · exact .inl (List.mem_cons_of_mem e hmem)
    · simp only [Std.ExtTreeMap.getElem?_insert, Std.compare_eq_iff_eq] at hm
      split at hm
      · next hkey =>
        cases hm
        subst hkey
        exact .inl List.mem_cons_self
      · exact .inr hm

/-- What is put in, or was there, is found in the end, if not with the same value. -/
theorem isSome_entered_iff :
    (entered m es)[k]?.isSome ↔ (∃ v, (k, v) ∈ es) ∨ m[k]?.isSome := by
  induction es generalizing m with
  | nil => simp [entered]
  | cons e es ih =>
    have hstep : (entered m (e :: es))[k]? = (entered (m.insert e.1 e.2) es)[k]? := rfl
    rw [hstep, ih]
    simp only [Std.ExtTreeMap.getElem?_insert, Std.compare_eq_iff_eq]
    by_cases hkey : e.1 = k
    · subst hkey
      simp only [if_true, Option.isSome_some, or_true, true_iff]
      exact .inl ⟨e.2, List.mem_cons_self⟩
    · have hne (v : ν) : (k, v) ≠ e := fun h => hkey (h ▸ rfl)
      simp [hkey, hne]

/-- Where every key has one value, the map has the entries. -/
theorem getElem?_entered_iff (h : ∀ v w, (k, v) ∈ es → (k, w) ∈ es → v = w) :
    (entered ∅ es)[k]? = some v ↔ (k, v) ∈ es := by
  have hmem {w : ν} (hw : (entered ∅ es)[k]? = some w) : (k, w) ∈ es :=
    (mem_of_getElem?_entered hw).resolve_right (by simp)
  refine ⟨hmem, fun hv => ?_⟩
  obtain ⟨w, hw⟩ := Option.isSome_iff_exists.1 (isSome_entered_iff.2 (.inl ⟨v, hv⟩))
  rw [hw, h v w hv (hmem hw)]

theorem entered_perm {es' : List (κ × ν)} (hperm : es.Perm es')
    (h : ∀ k v w, (k, v) ∈ es → (k, w) ∈ es → v = w) : entered ∅ es = entered ∅ es' := by
  refine Std.ExtTreeMap.ext_getElem? fun k => Option.ext fun v => ?_
  rw [getElem?_entered_iff (h k), getElem?_entered_iff, hperm.mem_iff]
  intro v w hv hw
  exact h k v w (hperm.mem_iff.2 hv) (hperm.mem_iff.2 hw)

end Entered

namespace AccountEntry

/-- The texts give the slot the value. -/
def Assigns (e : AccountEntry) (slot value : Word) : Prop :=
  ∃ p ∈ e.storage, Numeral.readWord p.1 = .ok slot ∧ Numeral.readWord p.2 = .ok value

/-- No two texts give one slot different values. -/
def Unambiguous (e : AccountEntry) : Prop :=
  ∀ slot v w, e.Assigns slot v → e.Assigns slot w → v = w

structure Legible (e : AccountEntry) : Prop where
  balance : ∃ w, readBalance e.balance = .ok w
  code : ∃ code, readCode e.code = .ok code
  slots : ∀ p ∈ e.storage, ∃ slot, Numeral.readWord p.1 = .ok slot
  values : ∀ p ∈ e.storage, ∃ value, Numeral.readWord p.2 = .ok value

structure Reordered (e e' : AccountEntry) : Prop where
  balance : e'.balance = e.balance
  nonce : e'.nonce = e.nonce
  code : e'.code = e.code
  storage : e.storage.Perm e'.storage

/-- The account is what the texts say, with one of the values that they give for each slot. -/
structure Describes (e : AccountEntry) (account : Account) : Prop where
  nonce : account.nonce = e.nonce
  balance : readBalance e.balance = .ok account.balance
  code : readCode e.code = .ok account.code
  value {slot value : Word} (h : account.storage[slot]? = some value) : e.Assigns slot value
  present (slot : Word) : account.storage[slot]?.isSome ↔ ∃ value, e.Assigns slot value

def slotOf (p : String × String) : Word × Word :=
  ((Numeral.readWord p.1).toOption.getD 0, (Numeral.readWord p.2).toOption.getD 0)

variable {e e' : AccountEntry}

theorem slotOf_eq {p : String × String} {slot value : Word} (hs : Numeral.readWord p.1 = .ok slot)
    (hv : Numeral.readWord p.2 = .ok value) : slotOf p = (slot, value) := by
  rw [slotOf, hs, hv]
  rfl

theorem Legible.readSlot (h : e.Legible) {p : String × String} (hp : p ∈ e.storage) :
    readSlot p = .ok (slotOf p) := by
  obtain ⟨slot, hs⟩ := h.slots p hp
  obtain ⟨value, hv⟩ := h.values p hp
  rw [slotOf_eq hs hv, AccountEntry.readSlot, hs, hv]
  rfl

theorem Legible.assigns_iff (h : e.Legible) {slot value : Word} :
    e.Assigns slot value ↔ (slot, value) ∈ e.storage.map slotOf := by
  rw [List.mem_map]
  constructor
  · rintro ⟨p, hp, hs, hv⟩
    exact ⟨p, hp, slotOf_eq hs hv⟩
  · rintro ⟨p, hp, heq⟩
    obtain ⟨slot', hs⟩ := h.slots p hp
    obtain ⟨value', hv⟩ := h.values p hp
    rw [slotOf_eq hs hv] at heq
    obtain ⟨rfl, rfl⟩ := Prod.mk.inj heq
    exact ⟨p, hp, hs, hv⟩

theorem foldl_setStorage (account : Account) (slots : List (Word × Word)) :
    slots.foldl (fun account s => account.setStorage s.1 s.2) account =
      { account with storage := entered account.storage slots } := by
  induction slots generalizing account with
  | nil => rfl
  | cons s slots ih => exact ih _

/-- The account is read, with its slots put in one after the other. -/
theorem Legible.account (h : e.Legible) : ∃ balance code,
    readBalance e.balance = .ok balance ∧ readCode e.code = .ok code ∧
    e.account = .ok ⟨e.nonce, balance, code, entered ∅ (e.storage.map slotOf)⟩ := by
  obtain ⟨balance, hbalance⟩ := h.balance
  obtain ⟨code, hcode⟩ := h.code
  have hslots := mapM_eq_ok fun p hp => h.readSlot hp
  refine ⟨balance, code, hbalance, hcode, ?_⟩
  rw [AccountEntry.account, hbalance, hcode, hslots]
  exact congrArg Except.ok (foldl_setStorage _ _)

theorem Legible.describes (h : e.Legible) :
    ∃ account, e.account = .ok account ∧ e.Describes account := by
  obtain ⟨balance, code, hbalance, hcode, haccount⟩ := h.account
  refine ⟨_, haccount, rfl, hbalance, hcode, fun hvalue => ?_, fun slot => ?_⟩
  · exact h.assigns_iff.2 ((mem_of_getElem?_entered hvalue).resolve_right (by simp))
  · rw [isSome_entered_iff, or_iff_left (by simp)]
    exact exists_congr fun value => h.assigns_iff.symm

namespace Reordered

theorem refl (e : AccountEntry) : e.Reordered e :=
  ⟨rfl, rfl, rfl, .refl _⟩

theorem legible (h : e.Reordered e') (he : e.Legible) : e'.Legible where
  balance := h.balance ▸ he.balance
  code := h.code ▸ he.code
  slots p hp := he.slots p (h.storage.mem_iff.2 hp)
  values p hp := he.values p (h.storage.mem_iff.2 hp)

theorem assigns (h : e.Reordered e') {slot value : Word} :
    e'.Assigns slot value ↔ e.Assigns slot value := by
  simp only [Assigns, h.storage.mem_iff]

/-- Without a slot that has two values, the order of the slots does not matter. -/
theorem account (h : e.Reordered e') (he : e.Legible) (hu : e.Unambiguous) :
    e'.account = e.account := by
  have hslots : entered ∅ (e.storage.map slotOf) = entered ∅ (e'.storage.map slotOf) := by
    refine entered_perm (h.storage.map slotOf) fun slot v w hv hw => ?_
    exact hu slot v w (he.assigns_iff.2 hv) (he.assigns_iff.2 hw)
  obtain ⟨balance, code, hbalance, hcode, haccount⟩ := he.account
  obtain ⟨balance', code', hbalance', hcode', haccount'⟩ := (h.legible he).account
  rw [h.balance, hbalance] at hbalance'
  rw [h.code, hcode] at hcode'
  cases hbalance'
  cases hcode'
  rw [haccount, haccount', h.nonce, hslots]

theorem describes (h : e.Reordered e') {account : Account} (hd : e'.Describes account) :
    e.Describes account where
  nonce := hd.nonce.trans h.nonce
  balance := h.balance ▸ hd.balance
  code := h.code ▸ hd.code
  value hvalue := h.assigns.1 (hd.value hvalue)
  present slot := (hd.present slot).trans (exists_congr fun _ => h.assigns)

end Reordered

/-- Every value that the texts give a slot is the slot's in one of the orders. -/
theorem Legible.exists_reordered (h : e.Legible) {slot value : Word} (ha : e.Assigns slot value) :
    ∃ e' account, e.Reordered e' ∧ e'.account = .ok account ∧
      account.storage[slot]? = some value := by
  obtain ⟨p, hp, hs, hv⟩ := ha
  obtain ⟨before, after, hstorage⟩ := List.append_of_mem hp
  -- The texts that give this value come last.
  let e' : AccountEntry := { e with storage := before ++ after ++ [p] }
  have hreordered : e.Reordered e' := by
    refine ⟨rfl, rfl, rfl, ?_⟩
    rw [hstorage]
    exact List.perm_middle.trans (List.perm_append_singleton p (before ++ after)).symm
  obtain ⟨balance, code, -, -, haccount⟩ := (hreordered.legible h).account
  refine ⟨e', _, hreordered, haccount, ?_⟩
  have hlast := getElem?_entered_concat ∅ ((before ++ after).map slotOf) (slot, value)
  rwa [← slotOf_eq hs hv, ← List.map_singleton, ← List.map_append, slotOf_eq hs hv] at hlast

end AccountEntry

namespace Json.Value

variable {κ α : Type} [DecidableEq κ]

theorem keys_put (entries : List (κ × α)) (k : κ) (a : α) :
    (put entries k a).map Prod.fst =
      if k ∈ entries.map Prod.fst then entries.map Prod.fst else entries.map Prod.fst ++ [k] := by
  have hany : (entries.any fun e => e.1 = k) = true ↔ k ∈ entries.map Prod.fst := by simp
  unfold put
  by_cases hk : k ∈ entries.map Prod.fst
  · rw [if_pos (hany.2 hk), if_pos hk, List.map_map]
    refine List.map_congr_left fun e _ => ?_
    by_cases he : e.1 = k
    · simp [he]
    · simp [he]
  · rw [if_neg (hany.not.2 hk), if_neg hk, List.map_append]
    rfl

theorem nodup_put {entries : List (κ × α)} (h : (entries.map Prod.fst).Nodup) (k : κ) (a : α) :
    ((put entries k a).map Prod.fst).Nodup := by
  rw [keys_put]
  by_cases hk : k ∈ entries.map Prod.fst
  · rwa [if_pos hk]
  · rw [if_neg hk]
    refine List.nodup_append.2 ⟨h, List.nodup_singleton k, fun a ha b hb => ?_⟩
    rw [List.mem_singleton.1 hb]
    exact ne_of_mem_of_not_mem ha hk

section Entries

variable {key : Text → Option κ} {value : Value → Option α} {entries : List (κ × α)}

theorem nodup_foldlM_put {done : List (κ × α)} {members : List (Text × Value)}
    (hdone : (done.map Prod.fst).Nodup)
    (h : members.foldlM (fun es m => return put es (← key m.1) (← value m.2)) done =
      some entries) : (entries.map Prod.fst).Nodup := by
  induction members generalizing done with
  | nil =>
    cases h
    exact hdone
  | cons m members ih =>
    obtain ⟨es, hput, hrest⟩ := Option.bind_eq_some_iff.1 h
    obtain ⟨k, -, hput⟩ := Option.bind_eq_some_iff.1 hput
    obtain ⟨a, -, hput⟩ := Option.bind_eq_some_iff.1 hput
    cases hput
    exact ih (nodup_put hdone k a) hrest

/-- No two entries of an object that has been read have the same key. -/
theorem nodup_entries? {v : Value} (h : entries? key value v = some entries) :
    (entries.map Prod.fst).Nodup := by
  cases v with
  | object members =>
    have hnone : (([] : List (κ × α)).map Prod.fst).Nodup := List.nodup_nil
    exact nodup_foldlM_put hnone h
  | _ => cases h

end Entries

end Json.Value

theorem Ledger.ext_account? {l l' : Ledger} (h : ∀ a, l.account? a = l'.account? a) : l = l' := by
  obtain ⟨accounts⟩ := l
  obtain ⟨accounts'⟩ := l'
  exact congrArg Ledger.mk (Std.ExtTreeMap.ext_getElem? h)

namespace StateFile

def Legible (f : StateFile) : Prop := ∀ e ∈ f.accounts, e.2.Legible

def Unambiguous (f : StateFile) : Prop := ∀ e ∈ f.accounts, e.2.Unambiguous

/-- The same file with its accounts, and the slots of each, in another order. -/
def Reordered (f g : StateFile) : Prop :=
  ∃ accounts, f.accounts.Perm accounts ∧
    List.Forall₂ (fun e e' => e'.1 = e.1 ∧ e.2.Reordered e'.2) accounts g.accounts

structure Describes (f : StateFile) (l : Ledger) : Prop where
  account {e : Address × AccountEntry} (h : e ∈ f.accounts) :
    ∃ account, l.account? e.1 = some account ∧ e.2.Describes account
  absent {a : Address} (h : ∀ e ∈ f.accounts, e.1 ≠ a) : l.account? a = none

def accountOf (e : Address × AccountEntry) : Address × Account :=
  (e.1, e.2.account.toOption.getD {})

variable {f g : StateFile}

theorem accountOf_eq {e : Address × AccountEntry} {account : Account}
    (h : e.2.account = .ok account) : accountOf e = (e.1, account) := by
  rw [accountOf, h]
  rfl

theorem nodup_addresses {text : String} (h : read? text = some f) :
    (f.accounts.map Prod.fst).Nodup := by
  obtain ⟨v, -, hv⟩ := Option.bind_eq_some_iff.1 h
  obtain ⟨fields, -, hfields⟩ := Option.bind_eq_some_iff.1 hv
  split at hfields
  rename_i field _
  obtain ⟨accounts, haccounts, hf⟩ := Option.bind_eq_some_iff.1 hfields
  cases hf
  cases field with
  | none =>
    cases haccounts
    exact List.nodup_nil
  | some v => exact Json.Value.nodup_entries? haccounts

theorem foldlM_insert {accounts : List (Address × AccountEntry)}
    (h : ∀ e ∈ accounts, e.2.Legible) (l : Ledger) :
    accounts.foldlM (fun (l : Ledger) e => (do
        return l.insert e.1 (← within s!"account {e.1.hex}" e.2.account) :
          Except Reasons Ledger)) l =
      .ok ⟨entered l.accounts (accounts.map accountOf)⟩ := by
  induction accounts generalizing l with
  | nil => rfl
  | cons e accounts ih =>
    obtain ⟨account, haccount, -⟩ := (h e List.mem_cons_self).describes
    rw [List.foldlM_cons, haccount, List.map_cons, accountOf_eq haccount]
    exact ih (fun e he => h e (List.mem_cons_of_mem _ he)) _

/-- The accounts are read, and put into the ledger one after the other. -/
theorem Legible.ledger (h : f.Legible) :
    f.ledger = .ok ⟨entered ∅ (f.accounts.map accountOf)⟩ :=
  foldlM_insert h .empty

theorem Legible.mem_accountOf_iff (h : f.Legible) {a : Address} {account : Account} :
    (a, account) ∈ f.accounts.map accountOf ↔
      ∃ e, (a, e) ∈ f.accounts ∧ e.account = .ok account := by
  rw [List.mem_map]
  constructor
  · rintro ⟨⟨a', e⟩, he, heq⟩
    obtain ⟨account', haccount, -⟩ := (h _ he).describes
    rw [accountOf_eq haccount] at heq
    obtain ⟨rfl, rfl⟩ := Prod.mk.inj heq
    exact ⟨e, he, haccount⟩
  · rintro ⟨e, he, haccount⟩
    exact ⟨(a, e), he, accountOf_eq haccount⟩

/-- The accounts of the ledger are those of the file. -/
theorem Legible.exists_ledger (h : f.Legible) (hkeys : (f.accounts.map Prod.fst).Nodup) :
    ∃ l, f.ledger = .ok l ∧ ∀ a account,
      l.account? a = some account ↔ ∃ e, (a, e) ∈ f.accounts ∧ e.account = .ok account := by
  refine ⟨_, h.ledger, fun a account => ?_⟩
  rw [← h.mem_accountOf_iff]
  refine getElem?_entered_iff fun account account' hin hin' => ?_
  obtain ⟨e, he, haccount⟩ := h.mem_accountOf_iff.1 hin
  obtain ⟨e', he', haccount'⟩ := h.mem_accountOf_iff.1 hin'
  cases List.inj_on_of_nodup_map hkeys he he' rfl
  exact Except.ok.inj (haccount.symm.trans haccount')

theorem Legible.describes (h : f.Legible) (hkeys : (f.accounts.map Prod.fst).Nodup) :
    ∃ l, f.ledger = .ok l ∧ f.Describes l := by
  obtain ⟨l, hl, haccounts⟩ := h.exists_ledger hkeys
  refine ⟨l, hl, fun {e} he => ?_, fun {a} ha => ?_⟩
  · obtain ⟨account, haccount, hd⟩ := (h e he).describes
    exact ⟨account, (haccounts e.1 account).2 ⟨e.2, he, haccount⟩, hd⟩
  · refine Option.eq_none_iff_forall_ne_some.2 fun account haccount => ?_
    obtain ⟨e, he, -⟩ := (haccounts a account).1 haccount
    exact ha (a, e) he rfl

namespace Reordered

theorem exists_left (h : f.Reordered g) {e' : Address × AccountEntry} (he' : e' ∈ g.accounts) :
    ∃ e ∈ f.accounts, e'.1 = e.1 ∧ e.2.Reordered e'.2 := by
  obtain ⟨accounts, hperm, hall⟩ := h
  obtain ⟨e, he, hee'⟩ := exists_mem_of_forall₂ hall.flip he'
  exact ⟨e, hperm.mem_iff.2 he, hee'⟩

theorem exists_right (h : f.Reordered g) {e : Address × AccountEntry} (he : e ∈ f.accounts) :
    ∃ e' ∈ g.accounts, e'.1 = e.1 ∧ e.2.Reordered e'.2 := by
  obtain ⟨accounts, hperm, hall⟩ := h
  exact exists_mem_of_forall₂ hall (hperm.mem_iff.1 he)

theorem legible (h : f.Reordered g) (hf : f.Legible) : g.Legible := by
  intro e' he'
  obtain ⟨e, he, -, hee'⟩ := h.exists_left he'
  exact hee'.legible (hf e he)

theorem nodup_addresses (h : f.Reordered g) (hf : (f.accounts.map Prod.fst).Nodup) :
    (g.accounts.map Prod.fst).Nodup := by
  obtain ⟨accounts, hperm, hall⟩ := h
  have hkeys : accounts.map Prod.fst = g.accounts.map Prod.fst := by
    rw [← List.forall₂_eq_eq_eq, List.forall₂_map_left_iff, List.forall₂_map_right_iff]
    exact hall.imp fun _ _ h => h.1.symm
  exact hkeys ▸ (hperm.map Prod.fst).nodup_iff.1 hf

theorem describes (h : f.Reordered g) {l : Ledger} (hd : g.Describes l) : f.Describes l where
  account {e} he := by
    obtain ⟨e', he', hkey, hee'⟩ := h.exists_right he
    obtain ⟨account, haccount, hdescribes⟩ := hd.account he'
    exact ⟨account, hkey ▸ haccount, hee'.describes hdescribes⟩
  absent {a} ha := hd.absent fun e' he' => by
    obtain ⟨e, he, hkey, -⟩ := h.exists_left he'
    exact hkey ▸ ha e he

/-- Without a slot that has two values, the order of the entries does not matter. -/
theorem ledger (h : f.Reordered g) (hkeys : (f.accounts.map Prod.fst).Nodup) (hf : f.Legible)
    (hu : f.Unambiguous) : g.ledger = f.ledger := by
  obtain ⟨l, hl, haccounts⟩ := hf.exists_ledger hkeys
  obtain ⟨l', hl', haccounts'⟩ := (h.legible hf).exists_ledger (h.nodup_addresses hkeys)
  rw [hl, hl']
  refine congrArg Except.ok (Ledger.ext_account? fun a => Option.ext fun account => ?_)
  rw [haccounts, haccounts']
  constructor
  · rintro ⟨e', he', haccount⟩
    obtain ⟨⟨a, e⟩, he, rfl, hee'⟩ := h.exists_left he'
    exact ⟨e, he, hee'.account (hf _ he) (hu _ he) ▸ haccount⟩
  · rintro ⟨e, he, haccount⟩
    obtain ⟨⟨a, e'⟩, he', rfl, hee'⟩ := h.exists_right he
    exact ⟨e', he', (hee'.account (hf _ he) (hu _ he)).symm ▸ haccount⟩

/-- One account can be reordered by itself. -/
theorem of_entry {a : Address} {e e' : AccountEntry} (hkeys : (f.accounts.map Prod.fst).Nodup)
    (he : (a, e) ∈ f.accounts) (h : e.Reordered e') :
    ∃ g, f.Reordered g ∧ (a, e') ∈ g.accounts := by
  refine ⟨⟨f.accounts.map fun x => if x.1 = a then (a, e') else x⟩,
    ⟨f.accounts, .refl _, ?_⟩, List.mem_map.2 ⟨(a, e), he, if_pos rfl⟩⟩
  rw [List.forall₂_map_right_iff, List.forall₂_same]
  intro x hx
  split
  · next hkey =>
    cases List.inj_on_of_nodup_map hkeys hx he hkey
    exact ⟨rfl, h⟩
  · exact ⟨rfl, .refl x.2⟩

end Reordered

/-- A slot has each of the values that its texts give it in some order of the file's entries. -/
theorem Legible.exists_reordered (h : f.Legible) (hkeys : (f.accounts.map Prod.fst).Nodup)
    {a : Address} {e : AccountEntry} (he : (a, e) ∈ f.accounts) {slot value : Word}
    (ha : e.Assigns slot value) : ∃ g l account, f.Reordered g ∧ g.ledger = .ok l ∧
      l.account? a = some account ∧ account.storage[slot]? = some value := by
  obtain ⟨e', account, hee', haccount, hvalue⟩ := (h _ he).exists_reordered ha
  obtain ⟨g, hg, he'⟩ := Reordered.of_entry hkeys he hee'
  obtain ⟨l, hl, haccounts⟩ := (hg.legible h).exists_ledger (hg.nodup_addresses hkeys)
  exact ⟨g, l, account, hg, hl, (haccounts a account).2 ⟨e', he', haccount⟩, hvalue⟩

/-- In every order of its entries a file whose texts can be read describes a ledger, which has the
accounts and the slots that the file names, each slot with a value that it is given. It is the same
ledger in every order exactly where no slot of an account is given two values. -/
theorem same_ledger_in_every_order_iff {text : String} (hread : read? text = some f)
    (hlegible : f.Legible) :
    (∀ g, f.Reordered g → ∃ l, g.ledger = .ok l ∧ f.Describes l) ∧
    ((∀ g, f.Reordered g → g.ledger = f.ledger) ↔ f.Unambiguous) := by
  have hkeys := nodup_addresses hread
  refine ⟨fun g hg => ?_, fun hsame => ?_, fun hu g hg => hg.ledger hkeys hlegible hu⟩
  · obtain ⟨l, hl, hd⟩ := (hg.legible hlegible).describes (hg.nodup_addresses hkeys)
    exact ⟨l, hl, hg.describes hd⟩
  · rintro ⟨a, e⟩ he slot v w hv hw
    obtain ⟨g, l, account, hg, hl, haccount, hvalue⟩ := hlegible.exists_reordered hkeys he hv
    obtain ⟨g', l', account', hg', hl', haccount', hvalue'⟩ := hlegible.exists_reordered hkeys he hw
    -- Both orders give one ledger, so one value.
    have hledger : l = l' := Except.ok.inj <| calc
      Except.ok l = g.ledger := hl.symm
      _ = f.ledger := hsame g hg
      _ = g'.ledger := (hsame g' hg').symm
      _ = .ok l' := hl'
    rw [hledger, haccount'] at haccount
    cases haccount
    rw [hvalue'] at hvalue
    exact (Option.some.inj hvalue).symm

def oneValueTwice : String :=
  "\x7b\"accounts\":\x7b\"0x0000000000000000000000000000000000000001\":\x7b\"storage\":\x7b\"1\":\"7\",\"0x01\":\"0x7\"\x7d\x7d\x7d\x7d"

/-- Where both spellings have one value, there is one ledger. -/
theorem one_value_one_ledger :
    ∃ f, read? oneValueTwice = some f ∧ f.Legible ∧
      ∀ g, f.Reordered g → g.ledger = f.ledger := by
  let f : StateFile := ⟨[(⟨1⟩, { storage := [("1", "7"), ("0x01", "0x7")] })]⟩
  have hread : read? oneValueTwice = some f := by decide +kernel
  have hslots : ∀ p ∈ [("1", "7"), ("0x01", "0x7")],
      Numeral.readWord p.1 = .ok 1 ∧ Numeral.readWord p.2 = .ok 7 := by decide +kernel
  have hlegible : f.Legible := List.forall_mem_singleton.2
    ⟨⟨0, rfl⟩, ⟨#[], rfl⟩, fun p hp => ⟨1, (hslots p hp).1⟩, fun p hp => ⟨7, (hslots p hp).2⟩⟩
  have hone : f.Unambiguous := by
    refine List.forall_mem_singleton.2 ?_
    rintro slot v w ⟨p, hp, -, hv⟩ ⟨q, hq, -, hw⟩
    have h := hv.symm.trans (hslots p hp).2
    have h' := hw.symm.trans (hslots q hq).2
    cases h
    cases h'
    rfl
  exact ⟨f, hread, hlegible, (same_ledger_in_every_order_iff hread hlegible).2.2 hone⟩

def twoValues : String :=
  "\x7b\"accounts\":\x7b\"0x0000000000000000000000000000000000000001\":\x7b\"storage\":\x7b\"1\":\"1\",\"0x01\":\"2\"\x7d\x7d\x7d\x7d"

/-- Where they have two, the one that comes last counts. -/
theorem two_values_two_ledgers :
    ∃ f g, read? twoValues = some f ∧ f.Legible ∧ f.Reordered g ∧
      g.ledger ≠ f.ledger := by
  let e : AccountEntry := { storage := [("1", "1"), ("0x01", "2")] }
  let e' : AccountEntry := { storage := [("0x01", "2"), ("1", "1")] }
  have hslots : ∀ p ∈ e.storage, Numeral.readWord p.1 = .ok 1 := by decide +kernel
  have hvalues : Numeral.readWord "1" = .ok 1 ∧ Numeral.readWord "2" = .ok 2 := by decide +kernel
  refine ⟨⟨[(⟨1⟩, e)]⟩, ⟨[(⟨1⟩, e')]⟩, by decide +kernel, ?_, ⟨_, .refl _, ?_⟩, fun heq => ?_⟩
  · exact List.forall_mem_singleton.2 ⟨⟨0, rfl⟩, ⟨#[], rfl⟩, fun p hp => ⟨1, hslots p hp⟩,
      List.forall_mem_cons.2 ⟨⟨1, hvalues.1⟩, List.forall_mem_singleton.2 ⟨2, hvalues.2⟩⟩⟩
  · exact .cons ⟨rfl, rfl, rfl, rfl, .swap ..⟩ .nil
  · have hvalue := congrArg (fun l => l.toOption.bind fun l => (l.account? ⟨1⟩).bind
      fun account => account.storage[(1 : Word)]?) heq
    revert hvalue
    decide +kernel

end StateFile

end SpeculativeEvm
