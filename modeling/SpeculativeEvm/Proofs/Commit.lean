import SpeculativeEvm.Overlay

/-! Writing an overlay into committed state, entry by entry. The order of the entries does not
matter, since they are entries of different keys: what is read afterwards is what a run with that
overlay saw before. -/

namespace SpeculativeEvm

namespace Ledger

/-- Writes every balance and every storage entry of the overlay. -/
def commit (l : Ledger) (o : Overlay) : Ledger :=
  o.storage.toList.foldl (fun l e => l.setStorage e.1.address e.1.slot e.2)
    (o.balances.toList.foldl (fun l e => l.setBalance e.1 e.2) l)

end Ledger

/-- What the overlay shows of the committed state. -/
def Committed.under (c : Committed) (o : Overlay) : Committed :=
  { c with balance := o.viewBalance c, storage := o.viewStorage c }

attribute [ext] Committed

/-- A map has one entry for a key. -/
theorem keys_ne_toList {κ ν : Type} [Ord κ] [Std.TransOrd κ] [Std.LawfulEqOrd κ]
    (es : Std.ExtTreeMap κ ν) : es.toList.Pairwise fun e e' => e.1 ≠ e'.1 := by
  refine es.distinct_keys_toList.imp fun {e e'} hne he => hne ?_
  rw [he]
  exact Std.ReflCmp.compare_self

section Writes

variable {κ ν δ : Type} (put : δ → κ → ν → δ)

/-- What no single write changes, no sequence of writes changes. -/
theorem same_foldl {α : Type} (f : δ → α) (h : ∀ d k v, f (put d k v) = f d) (es : List (κ × ν))
    (d : δ) : f (es.foldl (fun d e => put d e.1 e.2) d) = f d := by
  induction es generalizing d with
  | nil => rfl
  | cons e es ih => rw [List.foldl_cons, ih, h]

variable (read : δ → κ → ν) [DecidableEq κ]
  (h : ∀ d k v k', read (put d k v) k' = if k = k' then v else read d k')

include h

theorem read_foldl_of_notMem {k : κ} {es : List (κ × ν)} (hk : ∀ e ∈ es, e.1 ≠ k) (d : δ) :
    read (es.foldl (fun d e => put d e.1 e.2) d) k = read d k := by
  induction es generalizing d with
  | nil => rfl
  | cons e es ih =>
    rw [List.foldl_cons, ih (fun e' he' => hk e' (List.mem_cons_of_mem e he')), h,
      if_neg (hk e List.mem_cons_self)]

/-- Of writes to different keys, each one is read back. -/
theorem read_foldl_of_mem {k : κ} {v : ν} {es : List (κ × ν)}
    (hes : es.Pairwise fun e e' => e.1 ≠ e'.1) (hk : (k, v) ∈ es) (d : δ) :
    read (es.foldl (fun d e => put d e.1 e.2) d) k = v := by
  induction es generalizing d with
  | nil => cases hk
  | cons e es ih =>
    obtain ⟨he, hes⟩ := List.pairwise_cons.1 hes
    rw [List.foldl_cons]
    rcases List.mem_cons.1 hk with rfl | hk
    · rw [read_foldl_of_notMem put read h fun e' he' => (he e' he').symm, h, if_pos rfl]
    · exact ih hes hk _

theorem read_foldl_toList [Ord κ] [Std.TransOrd κ] [Std.LawfulEqOrd κ]
    (es : Std.ExtTreeMap κ ν) (d : δ) (k : κ) :
    read (es.toList.foldl (fun d e => put d e.1 e.2) d) k = es[k]?.getD (read d k) := by
  cases hk : es[k]? with
  | some v =>
    exact read_foldl_of_mem put read h (keys_ne_toList es)
      (Std.ExtTreeMap.mem_toList_iff_getElem?_eq_some.2 hk) d
  | none =>
    refine read_foldl_of_notMem put read h (fun e he hek => ?_) d
    have hs := Std.ExtTreeMap.mem_toList_iff_getElem?_eq_some.1 he
    rw [hek, hk] at hs
    cases hs

end Writes

namespace Ledger

variable (l : Ledger) (a : Address)

theorem committed_setBalance (w : Word) : (l.setBalance a w).committed =
    { l.committed with balance := fun b => if a = b then w else l.committed.balance b } := by
  unfold setBalance update committed
  congr 1
  all_goals
    funext b
    by_cases h : a = b
    · subst h
      cases ha : l.account? a <;> simp [account?_insert, ha]
    · simp [account?_insert, h]

theorem committed_setStorage (slot w : Word) : (l.setStorage a slot w).committed =
    { l.committed with
      storage := fun b s => if a = b ∧ slot = s then w else l.committed.storage b s } := by
  unfold setStorage update committed
  congr 1
  all_goals
    funext b
    by_cases h : a = b
    · subst h
      cases ha : l.account? a <;>
        simp [account?_insert, ha, Account.setStorage, Std.ExtTreeMap.getElem?_insert]
      all_goals
        funext s
        by_cases hs : slot = s <;> simp [hs]
    · simp [account?_insert, h]

theorem committed_setBalances (es : Std.ExtTreeMap Address Word) :
    (es.toList.foldl (fun l e => l.setBalance e.1 e.2) l).committed =
      { l.committed with balance := fun a => es[a]?.getD (l.committed.balance a) } := by
  refine Committed.ext ?_ ?_ ?_ ?_
  · funext a
    exact read_foldl_toList setBalance (fun d => d.committed.balance)
      (fun d b w b' => by rw [committed_setBalance]) es l a
  · exact same_foldl setBalance (fun d => d.committed.nonce)
      (fun d b w => by rw [committed_setBalance]) _ l
  · exact same_foldl setBalance (fun d => d.committed.code)
      (fun d b w => by rw [committed_setBalance]) _ l
  · exact same_foldl setBalance (fun d => d.committed.storage)
      (fun d b w => by rw [committed_setBalance]) _ l

theorem committed_setStorages (es : Std.ExtTreeMap SlotKey Word) :
    (es.toList.foldl (fun l e => l.setStorage e.1.address e.1.slot e.2) l).committed =
      { l.committed with
        storage := fun a slot => es[SlotKey.mk a slot]?.getD (l.committed.storage a slot) } := by
  let put (d : Ledger) (k : SlotKey) (w : Word) : Ledger := d.setStorage k.address k.slot w
  refine Committed.ext ?_ ?_ ?_ ?_
  · exact same_foldl put (fun d => d.committed.balance)
      (fun d k w => by rw [committed_setStorage]) _ l
  · exact same_foldl put (fun d => d.committed.nonce)
      (fun d k w => by rw [committed_setStorage]) _ l
  · exact same_foldl put (fun d => d.committed.code)
      (fun d k w => by rw [committed_setStorage]) _ l
  · funext a slot
    have h (d : Ledger) (k : SlotKey) (w : Word) (k' : SlotKey) :
        (put d k w).committed.storage k'.address k'.slot =
          if k = k' then w else d.committed.storage k'.address k'.slot := by
      obtain ⟨b, s⟩ := k
      obtain ⟨b', s'⟩ := k'
      rw [committed_setStorage]
      simp only [SlotKey.mk.injEq]
    exact read_foldl_toList put (fun d k => d.committed.storage k.address k.slot) h es l ⟨a, slot⟩

/-- What is read after the overlay's entries are written. -/
theorem committed_commit (o : Overlay) : (l.commit o).committed = l.committed.under o := by
  rw [commit, committed_setStorages, committed_setBalances]
  rfl

end Ledger

end SpeculativeEvm
