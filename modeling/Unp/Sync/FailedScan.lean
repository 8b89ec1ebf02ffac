import Unp.Sync.DirMonitor

/-!
# Scans that fail

The iterator over a directory can throw, and `startObserve` then goes on with the next scan. The first
loop of `monitorDir` has written to `entries_` by then: what it met and did not know is in the map, and
what had come back is marked as being there. The next scan finds nothing new about it, and so nobody is
told.
-/

namespace Unp.Sync

open Unp.Machine Unp.Run

/-- What the iterator delivers: the whole directory, or a part of it and an exception. -/
inductive Scan (α : Type) where
  | completes (snapshot : List α)
  | throws (visited : List α)
  deriving Repr, DecidableEq

namespace DirObservable
variable {α : Type} [DecidableEq α]

/-- One round of `startObserve`: the result of `monitorDir`, unless the iterator throws. -/
def scan (s : Scan α) (d : DirObservable α) : Option (EntryMap α × EntryMap α) × DirObservable α :=
  match s with
  | .completes snapshot =>
      let (result, d) := monitorDir snapshot d
      (some result, d)
  | .throws visited =>
      -- the maps of the call are gone, but `entries_` is a member
      let w := visited.foldl (visit d.dir) ⟨∅, d.entries, d.entries⟩
      (none, { d with entries := w.entries })

/-- The part of the directory that was walked through holds nothing new. -/
def Harmless (d : DirObservable α) : Scan α → Prop
  | .completes _ => True
  | .throws visited => ∀ x ∈ seen d.dir visited, Existing d.entries x

/-- A history in which a scan that fails leaves the map as it was, and one that does not reports the
differences to the last one that did not; the first of these found `prev`. -/
def Faithful (dir : α) : List α →
    List (Entry (DirObservable α) (Scan α) (Option (EntryMap α × EntryMap α))) → Prop
  | _, [] => True
  | prev, e :: history =>
      match e.input with
      | .completes snapshot =>
          (∃ result, e.output = some result ∧
            Reports dir (prev, snapshot) ⟨e.before, snapshot, result, e.after⟩) ∧
          Faithful dir snapshot history
      | .throws _ => e.after.entries = e.before.entries ∧ Faithful dir prev history

/-! ## A scan that fails -/

theorem visit_entries {dir : α} {w : Walk α} {e : α} (he : e ≠ dir → Existing w.entries e) :
    (visit dir w e).entries = w.entries := by
  rw [visit]
  by_cases hdir : e = dir
  · rw [if_pos hdir]
  · obtain ⟨hmem, hexisted⟩ := he hdir
    rw [if_neg hdir, if_neg (by simp [hexisted]), if_pos ⟨hmem, hexisted⟩]

/-- Walking through what is known changes nothing. -/
theorem foldl_visit_entries {dir : α} (visited : List α) {w : Walk α}
    (hknown : ∀ x ∈ seen dir visited, Existing w.entries x) :
    (visited.foldl (visit dir) w).entries = w.entries := by
  induction visited generalizing w with
  | nil => rfl
  | cons e visited ih =>
      have hstep : (visit dir w e).entries = w.entries := by
        apply visit_entries
        intro hdir
        exact hknown e (mem_seen.mpr ⟨List.mem_cons_self, hdir⟩)
      rw [List.foldl_cons, ih, hstep]
      intro x hx
      rw [hstep]
      obtain ⟨hmem, hdir⟩ := mem_seen.mp hx
      exact hknown x (mem_seen.mpr ⟨List.mem_cons_of_mem _ hmem, hdir⟩)

/-- **One scan that fails** leaves the map as it was exactly if it has met nothing new. -/
theorem throws_entries_iff (visited : List α) (d : DirObservable α) :
    (scan (.throws visited) d).2.entries = d.entries ↔ Harmless d (.throws visited) := by
  constructor
  · intro hsame x hx
    have hwalked := (walked_nil d.dir d.entries).foldl visited
    rw [List.nil_append] at hwalked
    have hentries : (visited.foldl (visit d.dir) ⟨∅, d.entries, d.entries⟩).entries = d.entries :=
      hsame
    have hmem := (hwalked.mem_entries x).mpr (.inr hx)
    have hexisted := (hwalked.isExisted_iff x).mpr (.inl hx)
    rw [hentries] at hmem hexisted
    exact ⟨hmem, hexisted⟩
  · intro hknown
    exact foldl_visit_entries visited hknown

/-! ## All scans -/

theorem exists_history (scans : List (Scan α)) (d : DirObservable α) :
    ∃ history d', run (fun s d => .ok (scan s d)) scans d = .ok (history, d') :=
  run_total (fun _ => True) (fun d s _ => ⟨(scan s d).1, (scan s d).2, rfl, trivial⟩) scans trivial

theorem run_scan_cons {s : Scan α} {scans : List (Scan α)} {d d' : DirObservable α}
    {history : List (Entry (DirObservable α) (Scan α) (Option (EntryMap α × EntryMap α)))}
    (hrun : run (fun s d => .ok (scan s d)) scans (scan s d).2 = .ok (history, d')) :
    run (fun s d => .ok (scan s d)) (s :: scans) d =
      .ok (⟨d, s, (scan s d).1, (scan s d).2⟩ :: history, d') := by
  rw [run, ok_bind]
  dsimp only
  rw [hrun]
  rfl

theorem faithful_iff_of_holds (scans : List (Scan α)) {prev : List α} {d : DirObservable α}
    (hd : Holds prev d) :
    ∃ history d', run (fun s d => .ok (scan s d)) scans d = .ok (history, d') ∧
      (Faithful d.dir prev history ↔ ∀ e ∈ history, Harmless e.before e.input) := by
  induction scans generalizing prev d with
  | nil => exact ⟨[], d, rfl, by simp [Faithful]⟩
  | cons s scans ih =>
      cases s with
      | completes snapshot =>
          obtain ⟨hreports, hdir⟩ := monitorDir_reports hd snapshot
          obtain ⟨history, d', hrun, hiff⟩ := ih (monitorDir_holds hd snapshot)
          rw [hdir] at hiff
          refine ⟨_, d', run_scan_cons hrun, ?_⟩
          rw [List.forall_mem_cons, ← hiff]
          exact ⟨fun hfaithful => ⟨trivial, hfaithful.2⟩, fun h => ⟨⟨_, rfl, hreports⟩, h.2⟩⟩
      | throws visited =>
          by_cases hharmless : Harmless d (.throws visited)
          · have hsame := (throws_entries_iff visited d).mpr hharmless
            have hnext : Holds prev (scan (.throws visited) d).2 := by
              intro x
              rw [hsame]
              exact hd x
            obtain ⟨history, d', hrun, hiff⟩ := ih hnext
            refine ⟨_, d', run_scan_cons hrun, ?_⟩
            rw [List.forall_mem_cons, ← hiff]
            exact ⟨fun hfaithful => ⟨hharmless, hfaithful.2⟩, fun h => ⟨hsame, h.2⟩⟩
          · -- whatever comes later, this one has changed the map
            obtain ⟨history, d', hrun⟩ := exists_history scans (scan (.throws visited) d).2
            refine ⟨_, d', run_scan_cons hrun, iff_of_false ?_ ?_⟩
            · intro hfaithful
              exact hharmless ((throws_entries_iff visited d).mp hfaithful.1)
            · intro hall
              exact hharmless (hall _ List.mem_cons_self)

/-- **Nothing is lost** exactly if no scan that fails has met anything new: neither in a single one, in
whatever state, nor in a whole run. -/
theorem scan_faithful_iff :
    (∀ (d : DirObservable α) (visited : List α),
      (scan (.throws visited) d).2.entries = d.entries ↔ Harmless d (.throws visited)) ∧
    ∀ (dir : α) (s₀ : List α) (scans : List (Scan α)), ∃ history d,
      run (fun s d => .ok (scan s d)) scans (new dir s₀) = .ok (history, d) ∧
        (Faithful dir s₀ history ↔ ∀ e ∈ history, Harmless e.before e.input) :=
  ⟨fun d visited => throws_entries_iff visited d,
    fun dir s₀ scans => faithful_iff_of_holds scans (holds_new dir s₀)⟩

/-- A file 1 is put into the directory 0; the scan that meets it fails, and the next one, which does
not, has nothing to report. -/
theorem scan_loses_file :
    (new 0 []).entries.keys = [] ∧ (scan (.throws [1]) (new 0 [])).2.entries.keys = [1] ∧
      (scan (.completes [1]) (scan (.throws [1]) (new 0 [])).2).1 = some (∅, ∅) := by
  refine ⟨rfl, rfl, rfl⟩

end DirObservable

end Unp.Sync
