import Mathlib.Data.List.Induction
import Mathlib.Data.List.Sort
import SpeculativeEvm.Proofs.Access.History
import SpeculativeEvm.Proofs.Commit
import SpeculativeEvm.Proofs.Text.Hex
import SpeculativeEvm.Report

/-! A report shows the whole of a run. Different accounts, words and accesses have different texts,
so no entry is put over another one when the entries are kept by their texts, in whatever order they
come; and what is printed tells the stack, the log, the overlay and the outcome. -/

namespace SpeculativeEvm

@[simp] theorem Address.hex_inj {a b : Address} : a.hex = b.hex ↔ a = b := by
  rw [hex, hex, Hex.marked_inj, bytes_inj]

namespace Json.Value

@[simp] theorem ofString_inj {s t : String} : ofString s = ofString t ↔ s = t := by
  refine ⟨?_, fun h => h ▸ rfl⟩
  intro h
  exact Option.some.inj (congrArg Json.Text.content (Value.string.inj h))

@[simp] theorem ofStrings_inj {l l' : List String} : ofStrings l = ofStrings l' ↔ l = l' := by
  have hitem : Function.Injective ofString := fun s t => ofString_inj.1
  rw [ofStrings, ofStrings, array.injEq, hitem.list_map.eq_iff]

@[simp] theorem ofMembers_inj {l l' : List (String × Value)} :
    ofMembers l = ofMembers l' ↔ l = l' := by
  have hmember : Function.Injective fun m : String × Value => (Json.Text.ofString m.1, m.2) := by
    rintro ⟨name, v⟩ ⟨name', v'⟩ h
    obtain ⟨hname, hv⟩ := Prod.mk.inj h
    exact Prod.ext (Option.some.inj (congrArg Json.Text.content hname)) hv
  rw [ofMembers, ofMembers, object.injEq, hmember.list_map.eq_iff]

end Json.Value

namespace Report

section Texts

@[simp] theorem wordText_inj {v w : Word} : wordText v = wordText w ↔ v = w := by
  rw [wordText, wordText, Hex.marked_inj, Word.toBytes_inj]

@[simp] theorem kindText_inj {k l : AccessKind} : kindText k = kindText l ↔ k = l := by
  cases k <;> cases l <;> decide

theorem slotTexts_inj {k l : SlotKey} :
    k.address.hex = l.address.hex ∧ wordText k.slot = wordText l.slot ↔ k = l := by
  cases k
  cases l
  simp

theorem accessEntry_inj {a b : Access} : accessEntry a = accessEntry b ↔ a = b := by
  cases a
  cases b
  simp [accessEntry]

end Texts

section Accounts

variable {accounts : List Address}

theorem mem_sort {text : String} :
    text ∈ (accounts.map Address.hex).mergeSort ↔ ∃ a ∈ accounts, a.hex = text := by
  simp

theorem sort_ascending (h : accounts.Nodup) :
    (accounts.map Address.hex).mergeSort.Pairwise (· < ·) := by
  have hnodup : (accounts.map Address.hex).mergeSort.Nodup := by
    rw [(List.mergeSort_perm _ _).nodup_iff]
    exact h.map fun a b => Address.hex_inj.1
  exact (List.pairwise_mergeSort' (· ≤ ·) _).imp₂ (fun _ _ => Std.lt_of_le_of_ne) hnodup

theorem sort_perm {accounts' : List Address} (hperm : accounts.Perm accounts') :
    (accounts.map Address.hex).mergeSort = (accounts'.map Address.hex).mergeSort := by
  have hsorts : (accounts.map Address.hex).mergeSort.Perm
      (accounts'.map Address.hex).mergeSort := by
    apply (List.mergeSort_perm _ _).trans
    exact (hperm.map Address.hex).trans (List.mergeSort_perm _ _).symm
  apply hsorts.eq_of_pairwise _ (List.pairwise_mergeSort' (· ≤ ·) _)
    (List.pairwise_mergeSort' (· ≤ ·) _)
  intro s t _ _ hst hts
  exact String.le_antisymm hst hts

end Accounts

section Balances

variable {balances : List (Address × Word)} {text value : String}

/-- Every balance stands under its own account, and nothing else does. -/
theorem getElem?_balanceTexts (h : balances.Pairwise fun d e => d.1 ≠ e.1) :
    (balanceTexts balances)[text]? = some value ↔
      ∃ e ∈ balances, e.1.hex = text ∧ wordText e.2 = value := by
  have hdistinct : (balances.map fun e => (e.1.hex, wordText e.2)).Pairwise
      fun d e => ¬ compare d.1 e.1 = .eq := by
    rw [List.pairwise_map]
    simpa using h
  have hread {e : Address × Word} (he : e ∈ balances) :
      (balanceTexts balances)[e.1.hex]? = some (wordText e.2) := by
    apply Std.ExtTreeMap.getElem?_ofList_of_mem Std.ReflCmp.compare_self hdistinct
    exact List.mem_map_of_mem he
  constructor
  · intro hvalue
    by_cases htext : ∃ e ∈ balances, e.1.hex = text
    · obtain ⟨e, he, rfl⟩ := htext
      exact ⟨e, he, rfl, Option.some.inj ((hread he).symm.trans hvalue)⟩
    · have hnone : (balanceTexts balances)[text]? = none := by
        apply Std.ExtTreeMap.getElem?_ofList_of_contains_eq_false
        simpa using htext
      cases hnone.symm.trans hvalue
  · rintro ⟨e, he, rfl, rfl⟩
    exact hread he

theorem balanceTexts_perm {balances' : List (Address × Word)} (hperm : balances.Perm balances')
    (h : balances.Pairwise fun d e => d.1 ≠ e.1) :
    balanceTexts balances = balanceTexts balances' := by
  have h' : balances'.Pairwise fun d e => d.1 ≠ e.1 := hperm.pairwise h Ne.symm
  apply Std.ExtTreeMap.ext_getElem?
  intro text
  apply Option.ext
  intro value
  simp only [getElem?_balanceTexts h, getElem?_balanceTexts h', hperm.mem_iff]

end Balances

def slot? (groups : Std.ExtTreeMap String Texts) (address slot : String) : Option String :=
  groups[address]?.bind fun group => group[slot]?

section Storage

variable {groups groups' : Std.ExtTreeMap String Texts}
  {slots : List (SlotKey × Word)} {address slot value : String}

theorem slot?_putSlot (e : SlotKey × Word) : slot? (putSlot groups e) address slot =
    if e.1.address.hex = address ∧ wordText e.1.slot = slot then some (wordText e.2)
    else slot? groups address slot := by
  unfold slot? putSlot
  simp only [Std.ExtTreeMap.getElem?_insert, Std.compare_eq_iff_eq]
  by_cases haddress : e.1.address.hex = address
  · subst haddress
    by_cases hslot : wordText e.1.slot = slot
    · simp [hslot]
    · cases hgroup : groups[e.1.address.hex]? with
      | none => simp [hslot]
      | some group => simp [Std.ExtTreeMap.getElem?_insert, hslot]
  · simp [haddress]

/-- Every slot stands under its own texts with its own value, and nothing else does. -/
theorem slot?_storageTexts (h : slots.Pairwise fun d e => d.1 ≠ e.1) :
    slot? (storageTexts slots) address slot = some value ↔
      ∃ e ∈ slots, e.1.address.hex = address ∧ wordText e.1.slot = slot ∧ wordText e.2 = value := by
  induction slots using List.reverseRecOn with
  | nil => simp [storageTexts, slot?]
  | append_singleton slots e ih =>
    obtain ⟨hslots, -, hlast⟩ := List.pairwise_append.1 h
    have hput : storageTexts (slots ++ [e]) = putSlot (storageTexts slots) e := by
      simp [storageTexts]
    simp only [hput, slot?_putSlot, List.mem_append, List.mem_singleton, or_and_right, exists_or,
      exists_eq_left]
    split
    · next htexts =>
      -- the entries before have other keys, hence other texts
      have hnone : ¬ ∃ d ∈ slots, d.1.address.hex = address ∧ wordText d.1.slot = slot ∧
          wordText d.2 = value := by
        rintro ⟨d, hd, haddress, hslot, -⟩
        have hsame := slotTexts_inj.1 ⟨haddress.trans htexts.1.symm, hslot.trans htexts.2.symm⟩
        exact hlast d hd e (List.mem_singleton.2 rfl) hsame
      simp [hnone, htexts]
    · next htexts =>
      rw [ih hslots]
      simp [← and_assoc, htexts]

def NoneEmpty (groups : Std.ExtTreeMap String Texts) : Prop :=
  ∀ (address : String) group, groups[address]? = some group → group ≠ ∅

theorem NoneEmpty.putSlot (h : NoneEmpty groups) (e : SlotKey × Word) :
    NoneEmpty (putSlot groups e) := by
  intro address group hgroup
  unfold Report.putSlot at hgroup
  simp only [Std.ExtTreeMap.getElem?_insert] at hgroup
  split at hgroup
  · cases hgroup
    exact Std.ExtTreeMap.insert_ne_empty
  · exact h address group hgroup

theorem noneEmpty_storageTexts (slots : List (SlotKey × Word)) :
    NoneEmpty (storageTexts slots) := by
  have hfold : ∀ groups, NoneEmpty groups → NoneEmpty (slots.foldl putSlot groups) := by
    induction slots with
    | nil => exact fun groups h => h
    | cons e slots ih => exact fun groups h => ih _ (h.putSlot e)
  apply hfold
  intro address group hgroup
  simp at hgroup

/-- Groups that are not empty are known from their slots. -/
theorem eq_of_slot?_eq (hg : NoneEmpty groups) (hg' : NoneEmpty groups')
    (h : ∀ address slot, slot? groups address slot = slot? groups' address slot) :
    groups = groups' := by
  apply Std.ExtTreeMap.ext_getElem?
  intro address
  have hslots := h address
  unfold slot? at hslots
  cases hgroup : groups[address]? with
  | none =>
    cases hgroup' : groups'[address]? with
    | none => rfl
    | some group' =>
      refine absurd ?_ (hg' address group' hgroup')
      apply Std.ExtTreeMap.ext_getElem?
      simpa [hgroup, hgroup', eq_comm] using hslots
  | some group =>
    cases hgroup' : groups'[address]? with
    | none =>
      refine absurd ?_ (hg address group hgroup)
      apply Std.ExtTreeMap.ext_getElem?
      simpa [hgroup, hgroup'] using hslots
    | some group' =>
      congr 1
      apply Std.ExtTreeMap.ext_getElem?
      simpa [hgroup, hgroup'] using hslots

theorem storageTexts_perm {slots' : List (SlotKey × Word)} (hperm : slots.Perm slots')
    (h : slots.Pairwise fun d e => d.1 ≠ e.1) : storageTexts slots = storageTexts slots' := by
  have h' : slots'.Pairwise fun d e => d.1 ≠ e.1 := hperm.pairwise h Ne.symm
  apply eq_of_slot?_eq (noneEmpty_storageTexts slots) (noneEmpty_storageTexts slots')
  intro address slot
  apply Option.ext
  intro value
  simp only [slot?_storageTexts h, slot?_storageTexts h', hperm.mem_iff]

end Storage

section Json

theorem entryJson_inj {e e' : AccessEntry} : entryJson e = entryJson e' ↔ e = e' := by
  cases e
  cases e'
  simp [entryJson]

theorem textsJson_inj {texts texts' : Texts} :
    textsJson texts = textsJson texts' ↔ texts = texts' := by
  have hentry : Function.Injective fun e : String × String => (e.1, Json.Value.ofString e.2) := by
    intro d e h
    simpa [Prod.ext_iff] using h
  rw [textsJson, textsJson, Json.Value.ofMembers_inj, hentry.list_map.eq_iff,
    Std.ExtTreeMap.toList_inj]

/-- What is printed tells the report. -/
theorem toJson_inj {r r' : Report} (h : r.toJson = r'.toJson) : r = r' := by
  have hentries : Function.Injective (List.map entryJson) :=
    List.map_injective_iff.2 fun _ _ => entryJson_inj.1
  have hgroup : Function.Injective fun e : String × Texts => (e.1, textsJson e.2) := by
    intro d e he
    simpa [Prod.ext_iff, textsJson_inj] using he
  have hgroups : Function.Injective fun groups : Std.ExtTreeMap String Texts =>
      groups.toList.map fun e => (e.1, textsJson e.2) :=
    fun _ _ hsame => Std.ExtTreeMap.toList_inj.1 (hgroup.list_map hsame)
  obtain ⟨output, stack, ⟨aborted, succeeded, selfDestructed⟩, error, reads, writes, log, balances,
    storage⟩ := r
  obtain ⟨output', stack', ⟨aborted', succeeded', selfDestructed'⟩, error', reads', writes', log',
    balances', storage'⟩ := r'
  have hmembers := Json.Value.ofMembers_inj.1 h
  cases error with
  | none =>
    cases error' with
    | none => simp_all [hentries.eq_iff, textsJson_inj, hgroups.eq_iff]
    | some message => simp at hmembers
  | some message =>
    cases error' with
    | none => simp at hmembers
    | some message' => simp_all [hentries.eq_iff, textsJson_inj, hgroups.eq_iff]

end Json

section Overlay

variable {address slot text value : String}

theorem getElem?_balances (o : Overlay) : (balanceTexts o.balances.toList)[text]? = some value ↔
    ∃ a w, o.balance? a = some w ∧ a.hex = text ∧ wordText w = value := by
  rw [getElem?_balanceTexts (keys_ne_toList o.balances)]
  simp [Overlay.balance?]

theorem slot?_storage (o : Overlay) : slot? (storageTexts o.storage.toList) address slot =
    some value ↔ ∃ a key w, o.storage? a key = some w ∧ a.hex = address ∧ wordText key = slot ∧
      wordText w = value := by
  rw [slot?_storageTexts (keys_ne_toList o.storage)]
  simp only [Overlay.storage?, ← Std.ExtTreeMap.mem_toList_iff_getElem?_eq_some]
  constructor
  · rintro ⟨⟨⟨a, key⟩, w⟩, he, htexts⟩
    exact ⟨a, key, w, he, htexts⟩
  · rintro ⟨a, key, w, he, htexts⟩
    exact ⟨⟨⟨a, key⟩, w⟩, he, htexts⟩

/-- Overlays with the same texts have the same entries. -/
theorem overlay_eq {o o' : Overlay}
    (hbalances : balanceTexts o.balances.toList = balanceTexts o'.balances.toList)
    (hstorage : storageTexts o.storage.toList = storageTexts o'.storage.toList) : o = o' := by
  have hbalance (a : Address) (w : Word) : o.balance? a = some w ↔ o'.balance? a = some w := by
    have htext (o : Overlay) : (balanceTexts o.balances.toList)[a.hex]? = some (wordText w) ↔
        o.balance? a = some w := by
      simp [getElem?_balances]
    rw [← htext, ← htext, hbalances]
  have hslot (a : Address) (key w : Word) :
      o.storage? a key = some w ↔ o'.storage? a key = some w := by
    have htext (o : Overlay) : slot? (storageTexts o.storage.toList) a.hex (wordText key) =
        some (wordText w) ↔ o.storage? a key = some w := by
      simp [slot?_storage]
    rw [← htext, ← htext, hstorage]
  cases o
  cases o'
  congr 1
  · exact Std.ExtTreeMap.ext_getElem? fun a => Option.ext fun w => hbalance a w
  · exact Std.ExtTreeMap.ext_getElem? fun k => Option.ext fun w => hslot k.address k.slot w

end Overlay

structure Shows (r : Report) (run : Speculation) : Prop where
  reads_ascending : r.reads.Pairwise (· < ·)
  writes_ascending : r.writes.Pairwise (· < ·)
  disjoint : r.reads.Disjoint r.writes
  accessed : ∀ text, text ∈ r.reads ∨ text ∈ r.writes ↔ ∃ entry ∈ r.log, entry.address = text
  written : ∀ text, text ∈ r.writes ↔ ⟨text, "write"⟩ ∈ r.log
  log : r.log = run.accesses.log.toList.map accessEntry
  balances : ∀ text value, r.balances[text]? = some value ↔
    ∃ a w, run.overlay.balance? a = some w ∧ a.hex = text ∧ wordText w = value
  storage : ∀ address slot value, slot? r.storage address slot = some value ↔
    ∃ a key w, run.overlay.storage? a key = some w ∧ a.hex = address ∧ wordText key = slot ∧
      wordText w = value
  noneEmpty : NoneEmpty r.storage

section Run

variable (frame frame' : Frame) (run run' : Speculation) (output output' : Bytes)
  (error error' : Option String)

theorem ofRun_shows (h : run.accesses.Built) : Shows (ofRun frame run output error) run where
  reads_ascending := sort_ascending (run.accesses.nodup_withKind .read)
  writes_ascending := sort_ascending (run.accesses.nodup_withKind .write)
  disjoint := by
    intro text hread hwrite
    obtain ⟨a, ha, rfl⟩ := mem_sort.1 hread
    obtain ⟨b, hb, hsame⟩ := mem_sort.1 hwrite
    obtain rfl := Address.hex_inj.1 hsame
    exact (List.nodup_append.1 run.accesses.nodup_reads_writes).2.2 b ha b hb rfl
  accessed := by
    intro text
    have haccessed (a : Address) : a ∈ run.accesses.reads ∨ a ∈ run.accesses.writes ↔
        run.accesses.Accessed a := by
      rw [← List.mem_append, AccessSet.mem_reads_writes_iff, h.summarizes.touches]
    simp only [ofRun, mem_sort, ← exists_or, ← or_and_right, haccessed]
    simp [AccessSet.Accessed, accessEntry]
  written := by
    intro text
    have hwrote (a : Address) : a ∈ run.accesses.writes ↔ run.accesses.Wrote a := by
      rw [AccessSet.writes, AccessSet.mem_withKind, h.summarizes.write]
    simp only [ofRun, mem_sort, hwrote, List.mem_map, Array.mem_toList_iff, AccessSet.Wrote]
    constructor
    · rintro ⟨a, ha, rfl⟩
      exact ⟨⟨a, .write⟩, ha, rfl⟩
    · rintro ⟨⟨a, kind⟩, ha, hsame⟩
      obtain ⟨rfl, hkind⟩ := AccessEntry.mk.inj hsame
      obtain rfl : kind = .write := kindText_inj.1 hkind
      exact ⟨a, ha, rfl⟩
  log := rfl
  balances _ _ := getElem?_balances run.overlay
  storage _ _ _ := slot?_storage run.overlay
  noneEmpty := noneEmpty_storageTexts _

variable {frame frame' run run' output output' error error'}

/-- Runs whose reports are printed the same are the same in all that is reported. -/
theorem of_toJson_eq
    (h : (ofRun frame run output error).toJson = (ofRun frame' run' output' error').toJson) :
    frame.stack = frame'.stack ∧ run.accesses.log = run'.accesses.log ∧
      run.overlay = run'.overlay ∧ run.outcome = run'.outcome ∧ output = output' ∧
        error = error' := by
  have hwords : Function.Injective wordText := fun _ _ => wordText_inj.1
  have haccesses : Function.Injective accessEntry := fun _ _ => accessEntry_inj.1
  obtain ⟨houtput, hstack, houtcome, herror, -, -, hlog, hbalances, hstorage⟩ :=
    mk.inj (toJson_inj h)
  refine ⟨?_, ?_, overlay_eq hbalances hstorage, houtcome, Hex.marked_inj.1 houtput,
    herror⟩
  · exact congrArg Stack.mk (List.reverse_injective (hwords.list_map hstack))
  · exact Array.toList_inj.1 (haccesses.list_map hlog)

/-- The report does not depend on the order in which the maps of the run give their entries. -/
theorem ofRun_of_perm {reads writes : List Address} {balances : List (Address × Word)}
    {slots : List (SlotKey × Word)} (hreads : reads.Perm run.accesses.reads)
    (hwrites : writes.Perm run.accesses.writes)
    (hbalances : balances.Perm run.overlay.balances.toList)
    (hslots : slots.Perm run.overlay.storage.toList) :
    { ofRun frame run output error with
      reads := (reads.map Address.hex).mergeSort
      writes := (writes.map Address.hex).mergeSort
      balances := balanceTexts balances
      storage := storageTexts slots } = ofRun frame run output error := by
  rw [sort_perm hreads, sort_perm hwrites, ← balanceTexts_perm hbalances.symm (keys_ne_toList _),
    ← storageTexts_perm hslots.symm (keys_ne_toList _)]
  rfl

/-- The report has each access and each entry of the run, under its own texts and once, and two
runs that print the same report have the same stack, log, overlay and outcome. -/
theorem report_lossless (h : run.accesses.Built) :
    Shows (ofRun frame run output error) run ∧
    ∀ frame' run' output' error',
      (ofRun frame run output error).toJson = (ofRun frame' run' output' error').toJson →
      frame.stack = frame'.stack ∧ run.accesses.log = run'.accesses.log ∧
        run.overlay = run'.overlay ∧ run.outcome = run'.outcome ∧ output = output' ∧
          error = error' :=
  ⟨ofRun_shows frame run output error h, fun _ _ _ _ => of_toJson_eq⟩

def storingOnce : Speculation where
  overlay := Overlay.empty.setStorage .zero 1 2
  accesses := (AccessSet.empty.record ⟨.zero, .read⟩).record ⟨.zero, .write⟩

/-- The account is listed as written, and its slot with the word. -/
theorem storingOnce_shown : storingOnce.accesses.Built ∧
    Address.zero.hex ∈ (ofRun (.fresh 0) storingOnce #[] none).writes ∧
    slot? (ofRun (.fresh 0) storingOnce #[] none).storage Address.zero.hex (wordText 1) =
      some (wordText 2) := by
  have hbuilt : storingOnce.accesses.Built := .record (.record .empty _) _
  have hshows : Shows (ofRun (.fresh 0) storingOnce #[] none) storingOnce :=
    (report_lossless hbuilt).1
  refine ⟨hbuilt, (hshows.written _).2 ?_,
    (hshows.storage _ _ _).2 ⟨.zero, 1, 2, ?_, rfl, rfl, rfl⟩⟩
  · rw [hshows.log]
    exact List.mem_map.2 ⟨⟨.zero, .write⟩, by simp [storingOnce], rfl⟩
  · simp [storingOnce]

end Run

end Report

end SpeculativeEvm
