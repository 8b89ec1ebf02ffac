import Mathlib.Data.List.Induction
import Mathlib.Data.List.Pairwise

/-!
# Maps in which the first entry wins

`std::map::insert`: an entry is inserted unless one with the same key is there. Two keys are the same
when neither is less than the other, so what the same key is depends on the map; it is a parameter
here. The entries are kept in the order in which they came.
-/

namespace Unp.FirstWins

variable {κ ν : Type} (same : κ → κ → Bool)

/-- The map has an entry with this key. -/
def Has (m : List (κ × ν)) (k : κ) : Prop := ∃ e ∈ m, same k e.1 = true

instance decidableHas (m : List (κ × ν)) (k : κ) : Decidable (Has same m k) :=
  inferInstanceAs (Decidable (∃ e ∈ m, same k e.1 = true))

def insert (m : List (κ × ν)) (e : κ × ν) : List (κ × ν) :=
  if Has same m e.1 then m else m ++ [e]

/-- `insert`, one entry after the other. -/
def insertAll (m : List (κ × ν)) (es : List (κ × ν)) : List (κ × ν) := es.foldl (insert same) m

variable {same} {m es : List (κ × ν)} {e : κ × ν}

theorem insert_eq_self_iff : insert same m e = m ↔ Has same m e.1 := by
  rw [insert]
  split
  · next h => exact iff_of_true rfl h
  · next h => exact iff_of_false (by simp) h

variable (same) in
/-- Nothing that is there is changed or taken out. -/
theorem insertAll_eq_append (m es : List (κ × ν)) : ∃ added, insertAll same m es = m ++ added := by
  induction es generalizing m with
  | nil => exact ⟨[], (List.append_nil m).symm⟩
  | cons e es ih =>
      obtain ⟨added, h⟩ := ih (insert same m e)
      rw [insertAll, List.foldl_cons, ← insertAll, h, insert]
      split
      · exact ⟨added, rfl⟩
      · exact ⟨e :: added, by simp⟩

theorem insertAll_append (m es es' : List (κ × ν)) :
    insertAll same m (es ++ es') = insertAll same (insertAll same m es) es' :=
  List.foldl_append

/-- A map that is the same in the end has never been changed. -/
theorem insertAll_cons_eq_self_iff :
    insertAll same m (e :: es) = m ↔ Has same m e.1 ∧ insertAll same m es = m := by
  rw [insertAll, List.foldl_cons, ← insertAll]
  constructor
  · intro h
    have hhas : Has same m e.1 := by
      by_contra hnew
      obtain ⟨added, hadded⟩ := insertAll_eq_append same (insert same m e) es
      have hlen := congrArg List.length (hadded.symm.trans h)
      rw [insert, if_neg hnew] at hlen
      simp at hlen
    rw [insert_eq_self_iff.mpr hhas] at h
    exact ⟨hhas, h⟩
  · rintro ⟨hhas, h⟩
    rwa [insert_eq_self_iff.mpr hhas]

theorem mem_insert (h : e ∈ insert same m a) : e ∈ m ∨ e = a := by
  rw [insert] at h
  split at h
  · exact Or.inl h
  · exact (List.mem_append.mp h).imp id List.mem_singleton.mp

theorem mem_insertAll (h : e ∈ insertAll same m es) : e ∈ m ∨ e ∈ es := by
  induction es generalizing m with
  | nil => exact Or.inl h
  | cons a es ih =>
      rcases ih h with h | h
      · rcases mem_insert h with h | rfl
        · exact Or.inl h
        · exact Or.inr List.mem_cons_self
      · exact Or.inr (List.mem_cons_of_mem a h)

/-! ## Keys are there once -/

variable (same) in
/-- No entry has the key of an earlier one. -/
def Apart (m : List (κ × ν)) : Prop := m.Pairwise fun e e' => same e'.1 e.1 = false

theorem Apart.insert (h : Apart same m) (e : κ × ν) : Apart same (insert same m e) := by
  rw [FirstWins.insert]
  split
  · exact h
  · next hnew =>
      apply List.pairwise_append.mpr
      refine ⟨h, List.pairwise_singleton _ _, ?_⟩
      intro a ha b hb
      rw [List.mem_singleton.mp hb, ← Bool.not_eq_true]
      exact fun hsame => hnew ⟨a, ha, hsame⟩

theorem Apart.insertAll (h : Apart same m) (es : List (κ × ν)) :
    Apart same (insertAll same m es) := by
  induction es generalizing m with
  | nil => exact h
  | cons e es ih => exact ih (h.insert e)

/-- Two entries with one key are one entry. -/
theorem Apart.eq_of_same (h : Apart same m) (hsymm : ∀ k k', same k k' = same k' k) {a b : κ × ν}
    (ha : a ∈ m) (hb : b ∈ m) (hsame : same a.1 b.1 = true) : a = b := by
  by_contra hne
  have : Std.Symm fun e e' : κ × ν => same e'.1 e.1 = false := ⟨fun e e' h => (hsymm _ _).trans h⟩
  have hdiffer : same b.1 a.1 = false := List.Pairwise.forall h ha hb hne
  rw [hsymm, hsame] at hdiffer
  cases hdiffer

/-! ## First entries -/

variable [BEq κ] [LawfulBEq κ]

/-- **Where keys are the same only if they are equal**, the map has of every key the first entry. -/
theorem mem_insertAll_iff (hsame : ∀ a ∈ es, ∀ b ∈ es, same a.1 b.1 = true ↔ a.1 = b.1) :
    e ∈ insertAll same [] es ↔ es.lookup e.1 = some e.2 := by
  induction es using List.reverseRecOn generalizing e with
  | nil => simp [insertAll]
  | append_singleton es a ih =>
      have ih' := fun e => ih (e := e) fun a ha b hb =>
        hsame a (List.mem_append_left _ ha) b (List.mem_append_left _ hb)
      have hhas : Has same (insertAll same [] es) a.1 ↔ (es.lookup a.1).isSome = true := by
        rw [Option.isSome_iff_exists]
        constructor
        · rintro ⟨b, hb, hab⟩
          have hbes : b ∈ es := (mem_insertAll hb).resolve_left List.not_mem_nil
          have heq := (hsame a (by simp) b (List.mem_append_left _ hbes)).mp hab
          exact ⟨b.2, heq ▸ (ih' b).mp hb⟩
        · rintro ⟨v, hv⟩
          exact ⟨(a.1, v), (ih' (a.1, v)).mpr hv, (hsame a (by simp) a (by simp)).mpr rfl⟩
      have hmem : e ∈ insertAll same [] (es ++ [a]) ↔
          e ∈ insertAll same [] es ∨ (¬ (es.lookup a.1).isSome = true ∧ e = a) := by
        rw [insertAll_append, insertAll, List.foldl_cons, List.foldl_nil, insert]
        split
        · next h => simp [hhas.mp h]
        · next h => simp [mt hhas.mpr h]
      have hlast : [a].lookup e.1 = if e.1 == a.1 then some a.2 else none := by
        rw [List.lookup_eq_findSome?, List.findSome?_singleton]
      rw [hmem, ih', List.lookup_append, hlast]
      by_cases hkey : e.1 = a.1
      · cases hfound : es.lookup a.1 with
        | none => simp [hkey, hfound, Prod.ext_iff, eq_comm]
        | some v => simp [hkey, hfound]
      · have hne : e ≠ a := fun h => hkey (congrArg Prod.fst h)
        simp [hkey, hne]

end Unp.FirstWins
