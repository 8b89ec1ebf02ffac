import Unp.Sync.FileTransfer

/-!
# Where received files are stored

`set_base_path` says where the files go. `write_file` puts the name of a file behind it with
`path::append` of boost, and that changes the path it is called on: the next file is opened below the
last one.

`SyncServerHandler` keeps a path as the list of what has been appended; `pathOf` is the path itself, for
a given `append`. What the results need of it is in `Appends`.
-/

namespace Unp.Sync

open Unp.Machine Unp.Run Unp.Reactor
open Unp.Util (cString)

/-! ## Paths -/

/-- `'/'`, the preferred separator. -/
def separator : Byte := 47

/-- `boost::filesystem::path::append`, as documented (version 3): an empty operand changes nothing, and
another one comes behind the path, with a separator between or without. -/
structure Appends (append : List Byte → List Byte → List Byte) : Prop where
  empty : ∀ p, append p [] = p
  follows : ∀ p operand,
    append p operand = p ++ operand ∨ append p operand = p ++ separator :: operand

/-- A path, as what has been appended to the first part. -/
def pathOf (append : List Byte → List Byte → List Byte) : List (List Byte) → List Byte
  | [] => []
  | base :: operands => operands.foldl append base

/-- The names put behind `base` do not show once `name` follows: they are empty, but for one that is
the separator which would have come there anyway. -/
def Harmless (append : List Byte → List Byte → List Byte) (base : List Byte)
    (names : List (List Byte)) (name : List Byte) : Prop :=
  names.filter (· ≠ []) = [] ∨
    names.filter (· ≠ []) = [[separator]] ∧ append base name = base ++ separator :: name ∧
      append base [separator] = base ++ [separator] ∧
      append (base ++ [separator]) name = base ++ separator :: name

section Append
variable {append : List Byte → List Byte → List Byte} (happend : Appends append)
include happend

theorem length_append_bounds (p operand : List Byte) :
    p.length + operand.length ≤ (append p operand).length ∧
      (append p operand).length ≤ p.length + operand.length + 1 := by
  rcases happend.follows p operand with heq | heq
  · rw [heq, List.length_append]
    omega
  · rw [heq, List.length_append, List.length_cons]
    omega

/-- Empty names do nothing. -/
theorem foldl_append_filter (base : List Byte) (names : List (List Byte)) :
    names.foldl append base = (names.filter (· ≠ [])).foldl append base := by
  induction names generalizing base with
  | nil => rfl
  | cons o names ih =>
      by_cases ho : o = []
      · subst ho
        rw [List.filter_cons_of_neg (by simp), List.foldl_cons, happend.empty, ih]
      · rw [List.filter_cons_of_pos (by simpa using ho), List.foldl_cons, List.foldl_cons, ih]

theorem length_foldl_append {names : List (List Byte)} (hnames : ∀ o ∈ names, o ≠ [])
    (base : List Byte) : base.length + names.length ≤ (names.foldl append base).length := by
  induction names generalizing base with
  | nil => exact Nat.le_refl _
  | cons o names ih =>
      obtain ⟨ho, hrest⟩ := List.forall_mem_cons.mp hnames
      have hlen := ih hrest (append base o)
      have hone := List.length_pos_of_ne_nil ho
      have hmore := (length_append_bounds happend base o).1
      rw [List.length_cons, List.foldl_cons]
      omega

/-- One name in between: the lengths leave room for a separator only. -/
theorem append_append_eq_iff {base o name : List Byte} (ho : o ≠ []) :
    append (append base o) name = append base name ↔
      o = [separator] ∧ append base name = base ++ separator :: name ∧
        append base [separator] = base ++ [separator] ∧
        append (base ++ [separator]) name = base ++ separator :: name := by
  constructor
  · intro heq
    have hpos := List.length_pos_of_ne_nil ho
    have hfirst := happend.follows base o
    have hsecond := happend.follows (append base o) name
    have hdirect := happend.follows base name
    rcases hdirect with hdirect | hdirect
    · -- nothing is between, but the name in between is there
      have hlen := congrArg List.length (heq.trans hdirect)
      have hmore := (length_append_bounds happend (append base o) name).1
      have hmore' := (length_append_bounds happend base o).1
      rw [List.length_append] at hlen
      omega
    · have hlen := congrArg List.length (heq.trans hdirect)
      rw [List.length_append, List.length_cons] at hlen
      have hclose : append base o = base ++ o := by
        refine hfirst.resolve_right fun hgap => ?_
        have hmore := (length_append_bounds happend (append base o) name).1
        have hlong : (append base o).length = base.length + (o.length + 1) := by
          rw [hgap, List.length_append, List.length_cons]
        omega
      have happended : append (append base o) name = append base o ++ name := by
        refine hsecond.resolve_right fun hgap => ?_
        have hmore := (length_append_bounds happend base o).1
        rw [hgap, List.length_append, List.length_cons] at hlen
        omega
      rw [hclose] at happended heq
      have hsplit : base ++ (o ++ name) = base ++ separator :: name := by
        rw [← List.append_assoc, ← happended, heq, hdirect]
      have hseparator : o = [separator] :=
        List.append_cancel_right (List.append_cancel_left hsplit)
      subst hseparator
      exact ⟨rfl, hdirect, hclose, heq.trans hdirect⟩
  · rintro ⟨rfl, hdirect, hclose, hthen⟩
    rw [hclose, hthen, hdirect]

theorem append_displaced_iff (base : List Byte) (names : List (List Byte)) (name : List Byte) :
    append (names.foldl append base) name = append base name ↔ Harmless append base names name := by
  rw [foldl_append_filter happend, Harmless]
  have hnonempty : ∀ o ∈ names.filter (· ≠ []), o ≠ [] := by simp
  generalize names.filter (· ≠ []) = shown at hnonempty
  match shown, hnonempty with
  | [], _ => simp
  | [o], hnonempty =>
      rw [List.foldl_cons, List.foldl_nil,
        append_append_eq_iff happend (hnonempty o List.mem_cons_self)]
      simp
  | o :: o' :: rest, hnonempty =>
      refine iff_of_false ?_ (by simp)
      intro heq
      have hmore := length_foldl_append happend hnonempty base
      have hlong := (length_append_bounds happend ((o :: o' :: rest).foldl append base) name).1
      have hshort := (length_append_bounds happend base name).2
      rw [heq] at hlong
      simp only [List.length_cons] at hmore
      omega

end Append

namespace SyncServerHandler

/-- `set_base_path`; `isThere` is what `exists` says about the path. -/
def setBasePath (path : List Byte) (isThere : Bool) (s : SyncServerHandler) :
    Bool × SyncServerHandler :=
  if isThere = true then (true, { s with syncBasePath := [path] }) else (false, s)

/-- The file a package makes `write_file` open: its name, and the path the writer is given. -/
def opening (mes : SyncPackage) (s : SyncServerHandler) :
    Option (List Byte × List (List Byte)) :=
  let header := mes.depositeFileHeader
  let fileName := cString (header.fileName ++ [0])
  if header.curSeqEnd ≤ header.fileLen - 1 ∧ s.fileWriters.lookup fileName = none then
    some (fileName, s.syncBasePath ++ [fileName])
  else none

inductive Op where
  | setBasePath (path : List Byte) (isThere : Bool)
  | package (mes : SyncPackage)

/-- The output is the file that has been opened. -/
def step (op : Op) (s : SyncServerHandler) :
    Res (Option (List Byte × List (List Byte)) × SyncServerHandler) :=
  match op with
  | .setBasePath path isThere => pure (none, (s.setBasePath path isThere).2)
  | .package mes => do
      let s' ← s.handleDepositeFile mes
      pure (s.opening mes, s')

/-! ## One step -/

section Steps
variable {s s' : SyncServerHandler} {mes : SyncPackage}

theorem writeFile_ok {fileName data : List Byte} {size : Nat}
    (hok : s.writeFile fileName data size = .ok s') :
    s'.closed = s.closed ∧
      ((s.fileWriters.lookup fileName = none ∧ s'.syncBasePath = s.syncBasePath ++ [fileName] ∧
          ∃ w, w.fileName = s.syncBasePath ++ [fileName] ∧
            s'.fileWriters = s.fileWriters.insert fileName w) ∨
        (∃ w, s.fileWriters.lookup fileName = some w) ∧ s'.syncBasePath = s.syncBasePath) := by
  obtain ⟨bytes, -, hok⟩ := bind_eq_ok hok
  cases hlookup : s.fileWriters.lookup fileName with
  | none =>
      rw [hlookup] at hok
      cases hok
      exact ⟨rfl, Or.inl ⟨rfl, rfl, _, rfl, rfl⟩⟩
  | some w =>
      rw [hlookup] at hok
      cases hok
      exact ⟨rfl, Or.inr ⟨⟨w, rfl⟩, rfl⟩⟩

/-- The second half: after the last piece the writer is closed. -/
def closeLast (header : DepositeFileHeader) (s : SyncServerHandler) : Res SyncServerHandler :=
  if header.curSeqEnd = header.fileLen - 1 then
    match s.fileWriters.lookup header.fileName with
    | none => .error .assertion
    | some w => pure { s with
        fileWriters := s.fileWriters.erase header.fileName
        closed := s.closed ++ [(header.fileName, w)] }
  else pure s

theorem handleDepositeFile_write
    (hwrite : mes.depositeFileHeader.curSeqEnd ≤ mes.depositeFileHeader.fileLen - 1) :
    s.handleDepositeFile mes =
      s.writeFile (cString (mes.depositeFileHeader.fileName ++ [0])) mes.content
        (u64OfInt (mes.depositeFileHeader.curSeqEnd - mes.depositeFileHeader.curSeqStart + 1)) >>=
      closeLast mes.depositeFileHeader := by
  rw [handleDepositeFile, if_pos hwrite]
  rfl

theorem handleDepositeFile_noWrite
    (hwrite : ¬ mes.depositeFileHeader.curSeqEnd ≤ mes.depositeFileHeader.fileLen - 1) :
    s.handleDepositeFile mes = closeLast mes.depositeFileHeader s := by
  rw [handleDepositeFile, if_neg hwrite]
  rfl

/-- Closing leaves the path alone, and a writer that was open is open or has just been closed. -/
theorem closeLast_ok {header : DepositeFileHeader} (hok : closeLast header s = .ok s') :
    s'.syncBasePath = s.syncBasePath ∧ ∀ name w, s.fileWriters.lookup name = some w →
      s'.fileWriters.lookup name = some w ∨ s'.closed = s.closed ++ [(name, w)] := by
  unfold closeLast at hok
  split at hok
  · cases hlookup : s.fileWriters.lookup header.fileName with
    | none =>
        rw [hlookup] at hok
        cases hok
    | some w₀ =>
        rw [hlookup] at hok
        cases hok
        refine ⟨rfl, ?_⟩
        intro name w hw
        by_cases hname : name = header.fileName
        · subst hname
          rw [hlookup] at hw
          cases hw
          exact Or.inr rfl
        · exact Or.inl ((AList.lookup_erase_ne hname).trans hw)
  · cases hok
    exact ⟨rfl, fun name w hw => Or.inl hw⟩

/-- The writer that has just been made for a file was given this path. -/
def OpenedAt (s s' : SyncServerHandler) (name : List Byte) (path : List (List Byte)) : Prop :=
  ∃ w, w.fileName = path ∧
    (s'.fileWriters.lookup name = some w ∨ s'.closed = s.closed ++ [(name, w)])

/-- A package that opens a file appends the name to the base path; the others leave it. -/
theorem handleDepositeFile_ok (hok : s.handleDepositeFile mes = .ok s') :
    (s.opening mes = none ∧ s'.syncBasePath = s.syncBasePath) ∨
      ∃ name, s.opening mes = some (name, s.syncBasePath ++ [name]) ∧
        s'.syncBasePath = s.syncBasePath ++ [name] ∧
        s.OpenedAt s' name (s.syncBasePath ++ [name]) := by
  by_cases hwrite : mes.depositeFileHeader.curSeqEnd ≤ mes.depositeFileHeader.fileLen - 1
  · rw [handleDepositeFile_write hwrite] at hok
    obtain ⟨s₁, hfile, hlast⟩ := bind_eq_ok hok
    obtain ⟨hpath, hkeep⟩ := closeLast_ok hlast
    obtain ⟨hclosed, ⟨hnew, hbase, w, hw, hinsert⟩ | ⟨⟨w, hold⟩, hbase⟩⟩ := writeFile_ok hfile
    · refine Or.inr ⟨_, if_pos ⟨hwrite, hnew⟩, hpath.trans hbase, w, hw, ?_⟩
      rw [← hclosed]
      apply hkeep
      rw [hinsert, AList.lookup_insert]
    · refine Or.inl ⟨if_neg ?_, hpath.trans hbase⟩
      rintro ⟨-, hnone⟩
      rw [hold] at hnone
      cases hnone
  · rw [handleDepositeFile_noWrite hwrite] at hok
    exact Or.inl ⟨if_neg fun h => hwrite h.1, (closeLast_ok hok).1⟩

end Steps

/-! ## Runs -/

/-- The path that was set last, and the names of the files opened since then. -/
structure Configured where
  base : List Byte
  names : List (List Byte)

/-- What an entry of the history adds. -/
def note (c : Configured)
    (e : Entry SyncServerHandler Op (Option (List Byte × List (List Byte)))) : Configured :=
  match e.input, e.output with
  | .setBasePath path true, _ => ⟨path, []⟩
  | _, some opened => { c with names := c.names ++ [opened.1] }
  | _, none => c

/-- `path` is what the constructor has set. -/
def configured (path : List Byte)
    (past : List (Entry SyncServerHandler Op (Option (List Byte × List (List Byte))))) :
    Configured :=
  past.foldl note ⟨path, []⟩

/-- What has been appended is the configured path and the names of all files opened since. -/
theorem step_configured {c : Configured} {s s' : SyncServerHandler} {op : Op}
    {opened : Option (List Byte × List (List Byte))}
    (hc : s.syncBasePath = c.base :: c.names) (hstep : step op s = .ok (opened, s')) :
    s'.syncBasePath = (note c ⟨s, op, opened, s'⟩).base :: (note c ⟨s, op, opened, s'⟩).names ∧
      ∀ name path, opened = some (name, path) → s.OpenedAt s' name path ∧
        path = c.base :: (c.names ++ [name]) := by
  cases op with
  | setBasePath path isThere =>
      cases hstep
      cases isThere with
      | true => exact ⟨rfl, by simp⟩
      | false => exact ⟨hc, by simp⟩
  | package mes =>
      obtain ⟨s₁, hok, hret⟩ := bind_eq_ok hstep
      rw [pure_eq_ok] at hret
      cases hret
      rcases handleDepositeFile_ok hok with ⟨hnone, hbase⟩ | ⟨name, hsome, hbase, hopened⟩
      · rw [hnone]
        refine ⟨?_, by simp⟩
        rw [hbase]
        exact hc
      · rw [hsome]
        constructor
        · rw [hbase, hc]
          rfl
        · rintro _ _ ⟨⟩
          refine ⟨hopened, ?_⟩
          rw [hc, List.cons_append]

/-- **Where a file is stored**, in every run: below the configured path exactly when the files
opened since have left the path as it was. -/
theorem opened_below_base_iff (append : List Byte → List Byte → List Byte)
    (happend : Appends append) (path : List Byte) (ops : List Op)
    {history : List (Entry SyncServerHandler Op (Option (List Byte × List (List Byte))))}
    {s : SyncServerHandler} (hrun : run step ops (new [path]) = .ok (history, s))
    {earlier later : List (Entry SyncServerHandler Op (Option (List Byte × List (List Byte))))}
    {e : Entry SyncServerHandler Op (Option (List Byte × List (List Byte)))}
    (hsplit : history = earlier ++ e :: later) {name : List Byte} {opened : List (List Byte)}
    (hopen : e.output = some (name, opened)) :
    e.before.OpenedAt e.after name opened ∧
      (pathOf append opened = append (configured path earlier).base name ↔
        Harmless append (configured path earlier).base (configured path earlier).names name) := by
  have hstart : (new [path]).syncBasePath =
      (configured path []).base :: (configured path []).names := rfl
  have hall := (run_history
    (fun past s => s.syncBasePath = (configured path past).base :: (configured path past).names)
    (fun _ _ => True)
    (fun past e => ∀ name opened, e.output = some (name, opened) →
      e.before.OpenedAt e.after name opened ∧
        opened = (configured path past).base :: ((configured path past).names ++ [name]))
    ?_ hstart hrun (fun _ _ => trivial)).2
  · obtain ⟨hat, hpath⟩ := hall earlier e later hsplit name opened hopen
    refine ⟨hat, ?_⟩
    rw [hpath, pathOf, List.foldl_append]
    exact append_displaced_iff happend _ _ _
  · intro past s i o s' hs _ hstep
    obtain ⟨hbase, hopened⟩ := step_configured hs hstep
    refine ⟨?_, hopened⟩
    rw [configured, List.foldl_append]
    exact hbase

/-- A file of one byte. -/
def oneByteFile (name : List Byte) : SyncPackage := ⟨⟨name, 1, 0, 0⟩, 1, [120]⟩

/-- An `append` for examples: a separator comes between unless there is one already, or nothing to
separate. -/
def plainAppend (p operand : List Byte) : List Byte :=
  if operand = [] then p
  else if p = [] ∨ p.getLast? = some separator ∨ operand.head? = some separator then p ++ operand
  else p ++ separator :: operand

theorem plainAppend_appends : Appends plainAppend where
  empty p := if_pos rfl
  follows p operand := by
    unfold plainAppend
    split
    · next hnil => exact Or.inl (by rw [hnil, List.append_nil])
    · split
      · exact Or.inl rfl
      · exact Or.inr rfl

/-- The base path is `"d"`. A file without a name has been opened before, and the file `"a"` is stored
below the base path all the same. -/
theorem opened_below_base_first :
    ∃ history s, run step [.setBasePath [100] true, .package (oneByteFile []),
        .package (oneByteFile [97])] (new [[47]]) = .ok (history, s) ∧
      ∃ earlier e, history = earlier ++ e :: [] ∧ e.output = some ([97], [[100], [], [97]]) ∧
        (configured [47] earlier).names = [[]] ∧
        e.before.OpenedAt e.after [97] [[100], [], [97]] ∧
        pathOf plainAppend [[100], [], [97]] = plainAppend (configured [47] earlier).base [97] := by
  refine ⟨_, _, rfl, [_, _], _, rfl, rfl, rfl, ?_⟩
  have hbelow := opened_below_base_iff plainAppend plainAppend_appends [47]
    [.setBasePath [100] true, .package (oneByteFile []), .package (oneByteFile [97])] rfl
    (show _ = [_, _] ++ _ :: _ from rfl) rfl
  exact ⟨hbelow.1, hbelow.2.mpr (Or.inl rfl)⟩

/-- The file `"b"` after it is opened as `"d/a/b"`. -/
theorem opened_below_last_file :
    ∃ history s, run step [.setBasePath [100] true, .package (oneByteFile [97]),
        .package (oneByteFile [98])] (new [[47]]) = .ok (history, s) ∧
      ∃ earlier e, history = earlier ++ e :: [] ∧ e.output = some ([98], [[100], [97], [98]]) ∧
        pathOf plainAppend [[100], [97], [98]] = [100, 47, 97, 47, 98] ∧
        plainAppend (configured [47] earlier).base [98] = [100, 47, 98] ∧
        pathOf plainAppend [[100], [97], [98]] ≠ plainAppend (configured [47] earlier).base [98] :=
  ⟨_, _, rfl, [_, _], _, rfl, rfl, by decide, by decide, by decide⟩

end SyncServerHandler

end Unp.Sync
