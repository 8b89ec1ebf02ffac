import Mathlib.Data.List.AList
import Mathlib.Data.List.Forall2
import Unp.Lib.Run

/-!
# Watching a directory

`DirObservable` keeps every entry it has ever seen, with a flag that says whether the entry is there
now. `monitorDir` walks through the directory once: it puts down what is new or has come back, and
strikes every entry it meets from a copy of its map; what is left in the copy and was there before is
gone now.

An entry is a value of any type; `recursive_directory_iterator` is the list of the entries it
delivers, in its order. The directory itself is passed over when it comes up.
-/

namespace Unp.Sync

open Unp.Machine Unp.Run

structure SyncEntryProperty where
  needSync : Bool
  isSyncing : Bool
  isExisted : Bool
  deriving Repr, DecidableEq

def SyncEntryProperty.new (needSync : Bool) : SyncEntryProperty := ⟨needSync, false, true⟩

section Monitor
variable {α : Type} [DecidableEq α]

/-- `std::map<Entry, SyncEntryProperty>`. -/
abbrev EntryMap (α : Type) [DecidableEq α] := AList fun _ : α => SyncEntryProperty

namespace EntryMap

/-- `emplace`: an entry that is there stays as it is. -/
def emplace (e : α) (property : SyncEntryProperty) (m : EntryMap α) : EntryMap α :=
  if e ∈ m then m else m.insert e property

/-- `m[e].isExisted()` of an entry that is there. -/
def isExisted (e : α) (m : EntryMap α) : Bool := ((m.lookup e).getD (.new false)).isExisted

/-- `m[e].setIsExisted(b)`. -/
def setIsExisted (e : α) (b : Bool) (m : EntryMap α) : EntryMap α :=
  m.insert e { (m.lookup e).getD (.new false) with isExisted := b }

section Lookups
variable (e x : α) (b : Bool) (property : SyncEntryProperty) (m : EntryMap α)

@[simp] theorem mem_emplace : x ∈ m.emplace e property ↔ x = e ∨ x ∈ m := by
  unfold emplace
  split
  · next he =>
      refine ⟨Or.inr, ?_⟩
      rintro (rfl | hx)
      · exact he
      · exact hx
  · exact AList.mem_insert m

@[simp] theorem mem_setIsExisted : x ∈ m.setIsExisted e b ↔ x = e ∨ x ∈ m := AList.mem_insert m

theorem isExisted_emplace {e : α} (he : e ∉ m) :
    (m.emplace e property).isExisted x = if x = e then property.isExisted else m.isExisted x := by
  rw [emplace, if_neg he]
  by_cases heq : x = e
  · subst heq
    rw [if_pos rfl, isExisted, AList.lookup_insert]
    rfl
  · rw [if_neg heq, isExisted, AList.lookup_insert_ne heq, isExisted]

theorem isExisted_setIsExisted :
    (m.setIsExisted e b).isExisted x = if x = e then b else m.isExisted x := by
  by_cases heq : x = e
  · subst heq
    rw [if_pos rfl, isExisted, setIsExisted, AList.lookup_insert]
    rfl
  · rw [if_neg heq, isExisted, setIsExisted, AList.lookup_insert_ne heq, isExisted]

end Lookups

end EntryMap

structure DirObservable (α : Type) [DecidableEq α] where
  dir : α
  entries : EntryMap α

namespace DirObservable

/-- `getEntriesOfDir(dir_, &entries_)`. -/
def getEntriesOfDir (dir : α) (snapshot : List α) (m : EntryMap α) : EntryMap α :=
  snapshot.foldl (fun m e => if e = dir then m else m.emplace e (.new true)) m

/-- The constructor, over a directory in which the iterator finds `snapshot`. -/
def new (dir : α) (snapshot : List α) : DirObservable α := ⟨dir, getEntriesOfDir dir snapshot ∅⟩

/-- The maps of the first loop of `monitorDir`. -/
structure Walk (α : Type) [DecidableEq α] where
  addedEntries : EntryMap α
  deletedEntries : EntryMap α
  entries : EntryMap α

/-- One round of the first loop. -/
def visit (dir : α) (w : Walk α) (e : α) : Walk α :=
  if e = dir then w
  else if e ∈ w.entries ∧ w.entries.isExisted e = false then
    -- it was deleted once
    let entries := w.entries.setIsExisted e true
    ⟨w.addedEntries.emplace e ((entries.lookup e).getD (.new false)), w.deletedEntries.erase e,
      entries⟩
  else if e ∈ w.entries ∧ w.entries.isExisted e = true then
    { w with deletedEntries := w.deletedEntries.erase e }
  else
    { w with
      addedEntries := w.addedEntries.emplace e (.new true)
      entries := w.entries.emplace e (.new true) }

/-- One round of the second loop; the pair is `entries_` and `newDeletedEntries`. -/
def strike (maps : EntryMap α × EntryMap α) (e : α) : EntryMap α × EntryMap α :=
  if maps.1.isExisted e = true then
    let entries := maps.1.setIsExisted e false
    (entries, maps.2.emplace e ((entries.lookup e).getD (.new false)))
  else maps

/-- `monitorDir`, when the iterator finds `snapshot`. -/
def monitorDir (snapshot : List α) (d : DirObservable α) :
    (EntryMap α × EntryMap α) × DirObservable α :=
  let w := snapshot.foldl (visit d.dir) ⟨∅, d.entries, d.entries⟩
  let (entries, newDeletedEntries) := w.deletedEntries.keys.foldl strike (w.entries, ∅)
  ((w.addedEntries, newDeletedEntries), { d with entries })

/-! ## Snapshots -/

/-- The entries of a snapshot. -/
def seen (dir : α) (snapshot : List α) : List α := snapshot.filter fun e => e ≠ dir

/-- The entries of a map that are there now. -/
def Existing (m : EntryMap α) (x : α) : Prop := x ∈ m ∧ m.isExisted x = true

/-- The result of a call between two snapshots: what has been added, what has been deleted, and what
is there afterwards. -/
structure Reports (dir : α) (snapshots : List α × List α)
    (e : Entry (DirObservable α) (List α) (EntryMap α × EntryMap α)) : Prop where
  added : ∀ x, x ∈ e.output.1 ↔ x ∈ seen dir snapshots.2 ∧ x ∉ seen dir snapshots.1
  deleted : ∀ x, x ∈ e.output.2 ↔ x ∈ seen dir snapshots.1 ∧ x ∉ seen dir snapshots.2
  existing : ∀ x, Existing e.after.entries x ↔ x ∈ seen dir snapshots.2

theorem mem_seen {dir x : α} {snapshot : List α} :
    x ∈ seen dir snapshot ↔ x ∈ snapshot ∧ x ≠ dir := by
  simp [seen]

theorem mem_seen_snoc {dir x e : α} {snapshot : List α} :
    x ∈ seen dir (snapshot ++ [e]) ↔ x ∈ seen dir snapshot ∨ x = e ∧ e ≠ dir := by
  rw [mem_seen, mem_seen, List.mem_append, List.mem_singleton]
  constructor
  · rintro ⟨hx | rfl, hne⟩
    · exact Or.inl ⟨hx, hne⟩
    · exact Or.inr ⟨rfl, hne⟩
  · rintro (⟨hx, hne⟩ | ⟨rfl, hne⟩)
    · exact ⟨Or.inl hx, hne⟩
    · exact ⟨Or.inr rfl, hne⟩

/-! ## The first loop -/

/-- Where the walk stands after some entries, when it began with the map `m`. -/
structure Walked (dir : α) (m : EntryMap α) (visited : List α) (w : Walk α) : Prop where
  mem_entries : ∀ x, x ∈ w.entries ↔ x ∈ m ∨ x ∈ seen dir visited
  isExisted_iff : ∀ x, w.entries.isExisted x = true ↔ x ∈ seen dir visited ∨ m.isExisted x = true
  mem_added : ∀ x, x ∈ w.addedEntries ↔ x ∈ seen dir visited ∧ ¬ Existing m x
  mem_deleted : ∀ x, x ∈ w.deletedEntries ↔ x ∈ m ∧ x ∉ seen dir visited

theorem walked_nil (dir : α) (m : EntryMap α) : Walked dir m [] ⟨∅, m, m⟩ where
  mem_entries x := by simp [seen]
  isExisted_iff x := by simp [seen]
  mem_added x := by simp [seen]
  mem_deleted x := by simp [seen]

section Visit
variable {dir : α} {m : EntryMap α} {visited : List α} {w : Walk α}

theorem Walked.visit (hw : Walked dir m visited w) (e : α) :
    Walked dir m (visited ++ [e]) (visit dir w e) := by
  rw [DirObservable.visit]
  by_cases hdir : e = dir
  · rw [if_pos hdir]
    have hsame : ∀ x, x ∈ seen dir (visited ++ [e]) ↔ x ∈ seen dir visited := by
      intro x
      simp [mem_seen_snoc, hdir]
    exact ⟨by simpa [hsame] using hw.mem_entries, by simpa [hsame] using hw.isExisted_iff,
      by simpa [hsame] using hw.mem_added, by simpa [hsame] using hw.mem_deleted⟩
  rw [if_neg hdir]
  have hsnoc : ∀ x, x ∈ seen dir (visited ++ [e]) ↔ x ∈ seen dir visited ∨ x = e := by
    intro x
    simp [mem_seen_snoc, hdir]
  have hmem := hw.mem_entries e
  have hexisted := hw.isExisted_iff e
  by_cases hback : e ∈ w.entries ∧ w.entries.isExisted e = false
  · -- it comes back: the walk has not met it before
    rw [if_pos hback]
    have hunseen : e ∉ seen dir visited := by grind
    have hgone : ¬ Existing m e := by grind [Existing]
    constructor
    · intro x
      grind [EntryMap.mem_setIsExisted, hw.mem_entries x]
    · intro x
      grind [EntryMap.isExisted_setIsExisted, hw.isExisted_iff x]
    · intro x
      grind [EntryMap.mem_emplace, hw.mem_added x]
    · intro x
      grind [AList.mem_erase, hw.mem_deleted x]
  rw [if_neg hback]
  by_cases hthere : e ∈ w.entries ∧ w.entries.isExisted e = true
  · rw [if_pos hthere]
    have hknown : e ∈ seen dir visited ∨ Existing m e := by grind [Existing]
    constructor
    · intro x
      grind [hw.mem_entries x]
    · intro x
      grind [Existing, hw.isExisted_iff x]
    · intro x
      grind [hw.mem_added x]
    · intro x
      grind [AList.mem_erase, hw.mem_deleted x]
  · rw [if_neg hthere]
    have hnew : e ∉ w.entries := by grind
    have hunknown : e ∉ m ∧ e ∉ seen dir visited := by grind
    constructor
    · intro x
      grind [EntryMap.mem_emplace, hw.mem_entries x]
    · intro x
      rw [EntryMap.isExisted_emplace x (.new true) _ hnew]
      grind [SyncEntryProperty.new, hw.isExisted_iff x]
    · intro x
      grind [Existing, EntryMap.mem_emplace, hw.mem_added x]
    · intro x
      grind [hw.mem_deleted x]

theorem Walked.foldl (snapshot : List α) (hw : Walked dir m visited w) :
    Walked dir m (visited ++ snapshot) (snapshot.foldl (DirObservable.visit dir) w) := by
  induction snapshot generalizing visited w with
  | nil => simpa using hw
  | cons e snapshot ih =>
      have hrest := ih (hw.visit e)
      rwa [List.append_assoc] at hrest

end Visit

/-! ## The second loop -/

/-- Where the second loop stands after some entries of the copy, when it began with the map `m`. -/
structure Struck (m : EntryMap α) (struck : List α) (maps : EntryMap α × EntryMap α) : Prop where
  mem_entries : ∀ x, x ∈ maps.1 ↔ x ∈ m
  isExisted_iff : ∀ x, maps.1.isExisted x = true ↔ m.isExisted x = true ∧ x ∉ struck
  mem_newDeleted : ∀ x, x ∈ maps.2 ↔ x ∈ struck ∧ m.isExisted x = true

theorem struck_nil (m : EntryMap α) : Struck m [] (m, ∅) where
  mem_entries x := Iff.rfl
  isExisted_iff x := by simp
  mem_newDeleted x := by simp

section Strike
variable {m : EntryMap α} {struck : List α} {maps : EntryMap α × EntryMap α}

theorem Struck.strike (hs : Struck m struck maps) {e : α} (he : e ∈ m) :
    Struck m (struck ++ [e]) (strike maps e) := by
  rw [DirObservable.strike]
  have hexisted := hs.isExisted_iff e
  by_cases hthere : maps.1.isExisted e = true
  · rw [if_pos hthere]
    constructor
    · intro x
      grind [EntryMap.mem_setIsExisted, hs.mem_entries x]
    · intro x
      grind [EntryMap.isExisted_setIsExisted, hs.isExisted_iff x]
    · intro x
      grind [EntryMap.mem_emplace, hs.mem_newDeleted x]
  · -- it has been gone for longer, or has been struck already
    rw [if_neg hthere]
    constructor
    · exact hs.mem_entries
    · intro x
      grind [hs.isExisted_iff x]
    · intro x
      grind [hs.mem_newDeleted x]

theorem Struck.foldl (rest : List α) (hrest : ∀ x ∈ rest, x ∈ m) (hs : Struck m struck maps) :
    Struck m (struck ++ rest) (rest.foldl DirObservable.strike maps) := by
  induction rest generalizing struck maps with
  | nil => simpa using hs
  | cons e rest ih =>
      have he : e ∈ m := hrest e List.mem_cons_self
      have htail := ih (fun x hx => hrest x (List.mem_cons_of_mem _ hx)) (hs.strike he)
      rwa [List.append_assoc] at htail

end Strike

/-! ## One call, and all of them -/

/-- The map holds what a snapshot holds. -/
def Holds (prev : List α) (d : DirObservable α) : Prop :=
  ∀ x, Existing d.entries x ↔ x ∈ seen d.dir prev

theorem existing_getEntriesOfDir (dir : α) (snapshot : List α) (m : EntryMap α) (x : α) :
    Existing (getEntriesOfDir dir snapshot m) x ↔
      Existing m x ∨ x ∉ m ∧ x ∈ seen dir snapshot := by
  induction snapshot generalizing m with
  | nil => simp [getEntriesOfDir, seen]
  | cons e snapshot ih =>
      have hseen : x ∈ seen dir (e :: snapshot) ↔ x = e ∧ e ≠ dir ∨ x ∈ seen dir snapshot := by
        grind [mem_seen]
      rw [getEntriesOfDir, List.foldl_cons, ← getEntriesOfDir, ih, hseen]
      by_cases hdir : e = dir
      · simp [hdir]
      · rw [if_neg hdir]
        by_cases he : e ∈ m
        · rw [EntryMap.emplace, if_pos he]
          grind
        · have hexisted := EntryMap.isExisted_emplace x (.new true) m he
          grind [Existing, EntryMap.mem_emplace, SyncEntryProperty.new]

theorem holds_new (dir : α) (snapshot : List α) : Holds snapshot (new dir snapshot) := by
  intro x
  rw [new, existing_getEntriesOfDir]
  simp [Existing]

/-- One call. -/
theorem monitorDir_reports {prev : List α} {d : DirObservable α} (hd : Holds prev d)
    (snapshot : List α) :
    Reports d.dir (prev, snapshot)
        ⟨d, snapshot, (monitorDir snapshot d).1, (monitorDir snapshot d).2⟩ ∧
      (monitorDir snapshot d).2.dir = d.dir := by
  have hwalked := (walked_nil d.dir d.entries).foldl snapshot
  rw [List.nil_append] at hwalked
  rw [monitorDir]
  generalize snapshot.foldl (visit d.dir) ⟨∅, d.entries, d.entries⟩ = w at hwalked ⊢
  have hkeys : ∀ x ∈ w.deletedEntries.keys, x ∈ w.entries := by
    intro x hx
    exact (hwalked.mem_entries x).mpr (Or.inl ((hwalked.mem_deleted x).mp hx).1)
  have hstruck := (struck_nil w.entries).foldl w.deletedEntries.keys hkeys
  rw [List.nil_append] at hstruck
  generalize w.deletedEntries.keys.foldl strike (w.entries, ∅) = maps at hstruck ⊢
  have hdeleted : ∀ x, x ∈ w.deletedEntries.keys ↔ x ∈ d.entries ∧ x ∉ seen d.dir snapshot :=
    hwalked.mem_deleted
  refine ⟨⟨?_, ?_, ?_⟩, rfl⟩
  · intro x
    rw [← hd x]
    exact hwalked.mem_added x
  · intro x
    show x ∈ maps.2 ↔ x ∈ seen d.dir prev ∧ x ∉ seen d.dir snapshot
    rw [← hd x, hstruck.mem_newDeleted, hdeleted, hwalked.isExisted_iff, Existing]
    grind
  · intro x
    show Existing maps.1 x ↔ x ∈ seen d.dir snapshot
    rw [Existing, hstruck.mem_entries, hstruck.isExisted_iff, hdeleted, hwalked.mem_entries,
      hwalked.isExisted_iff]
    grind

theorem monitorDir_holds {prev : List α} {d : DirObservable α} (hd : Holds prev d)
    (snapshot : List α) : Holds snapshot (monitorDir snapshot d).2 := by
  obtain ⟨hreports, hdir⟩ := monitorDir_reports hd snapshot
  intro x
  rw [hdir]
  exact hreports.existing x

theorem reports_of_holds (snapshots : List (List α)) {prev : List α} {d : DirObservable α}
    (hd : Holds prev d) :
    ∃ history d', run (fun snapshot d => .ok (monitorDir snapshot d)) snapshots d =
        .ok (history, d') ∧
      List.Forall₂ (Reports d.dir) ((prev :: snapshots).zip snapshots) history := by
  induction snapshots generalizing prev d with
  | nil => exact ⟨[], d, rfl, List.Forall₂.nil⟩
  | cons snapshot snapshots ih =>
      obtain ⟨hreports, hdir⟩ := monitorDir_reports hd snapshot
      obtain ⟨history, d', hrun, hall⟩ := ih (monitorDir_holds hd snapshot)
      refine ⟨⟨d, snapshot, (monitorDir snapshot d).1, (monitorDir snapshot d).2⟩ :: history, d',
        ?_, ?_⟩
      · rw [run, ok_bind]
        simp only [hrun, ok_bind, pure_eq_ok]
      · rw [hdir] at hall
        exact List.Forall₂.cons hreports hall

/-- Every call tells the difference between the directory as the last call saw it and as it sees it
now, however often entries go and come back. -/
theorem monitorDir_reports_differences (dir : α) (s₀ : List α) (snapshots : List (List α)) :
    ∃ history d, run (fun snapshot d => .ok (monitorDir snapshot d)) snapshots (new dir s₀) =
        .ok (history, d) ∧
      List.Forall₂ (Reports dir) ((s₀ :: snapshots).zip snapshots) history :=
  reports_of_holds snapshots (holds_new dir s₀)

end DirObservable

end Monitor

end Unp.Sync
