import QueryDoc.Command
import QueryDoc.Command.Folder
import QueryDoc.Proofs.Command.Path
import QueryDoc.Proofs.Lexical.Seam
import Mathlib.Algebra.Ring.Nat

/-!
# Checks that end in any order

The files of a check are parsed by tasks that end in any order, and reports come
in as they do. Sorting puts them in the order of their paths again, but leaves
reports on the same parts in the order in which they came. So what is counted and
whether the check fails never depends on the order, and what is printed depends on
it exactly if one file that fails is named by two spellings whose messages read
differently one after the other.
-/
namespace QueryDoc

namespace FileReport

/-- The reports as they come in, given what comes of checking each path and in
which order the checks end. -/
def reports (outcome : String → Except String Tally) (order : List String) : List FileReport :=
  order.map fun path => ⟨path, outcome path⟩

/-- What is printed when the checks end in the given order. -/
def printed (outcome : String → Except String Tally) (skipped : Nat) (order : List String) :
    Printout :=
  summary skipped (reports outcome order)

/-! ## Sorting -/

variable {rs rs' : List FileReport}

theorem precedes_trans {a b c : FileReport} (h : a.precedes b) (h' : b.precedes c) :
    a.precedes c :=
  (Std.TransCmp.isLE_trans h h' : (Path.compare a.path c.path).isLE)

theorem precedes_total (a b : FileReport) : a.precedes b || b.precedes a := by
  rw [Bool.or_eq_true]
  exact Path.isLE_total a.path b.path

theorem sorted_perm (rs : List FileReport) : (sorted rs).Perm rs := List.mergeSort_perm rs precedes

theorem sorted_pairwise (rs : List FileReport) :
    (sorted rs).Pairwise fun a b => a.precedes b :=
  @List.pairwise_mergeSort _ precedes (fun _ _ _ => precedes_trans) precedes_total rs

theorem sorted_of_pairwise (h : rs.Pairwise fun a b => a.precedes b) : sorted rs = rs :=
  List.mergeSort_of_pairwise h

/-- What is put together along a sorted list does not depend on how ties are
sorted if the pieces of ties may change places. -/
theorem flatMap_of_sorted {γ : Type} {f : FileReport → List γ} (perm : rs.Perm rs')
    (hrs : rs.Pairwise fun a b => a.precedes b) (hrs' : rs'.Pairwise fun a b => a.precedes b)
    (ties : ∀ a ∈ rs, ∀ b ∈ rs, a.precedes b → b.precedes a → f a ++ f b = f b ++ f a) :
    rs.flatMap f = rs'.flatMap f := by
  induction rs generalizing rs' with
  | nil => rw [List.nil_perm.1 perm]
  | cons r rs ih =>
    obtain ⟨before, after, rfl⟩ := List.append_of_mem (perm.subset List.mem_cons_self)
    have rest : rs.Perm (before ++ after) := (perm.trans List.perm_middle).cons_inv
    rw [List.pairwise_cons] at hrs
    have hrest : (before ++ after).Pairwise fun a b => a.precedes b :=
      hrs'.sublist ((List.Sublist.refl before).append (List.sublist_cons_self r after))
    -- What stands before `r` in one list and after it in the other is tied with it.
    have past : ∀ b ∈ before, f r ++ f b = f b ++ f r := by
      intro b hb
      have hb' : b ∈ rs := rest.symm.subset (List.mem_append_left _ hb)
      refine ties r List.mem_cons_self b (List.mem_cons_of_mem _ hb') (hrs.1 b hb') ?_
      exact (List.pairwise_append.1 hrs').2.2 b hb r List.mem_cons_self
    have move : f r ++ before.flatMap f = before.flatMap f ++ f r := by
      clear * - past
      induction before with
      | nil => simp
      | cons b bs ih =>
        rw [List.forall_mem_cons] at past
        rw [List.flatMap_cons, ← List.append_assoc, past.1, List.append_assoc, ih past.2,
          List.append_assoc]
    have tail := ih rest hrs.2 hrest fun a ha b hb =>
      ties a (List.mem_cons_of_mem _ ha) b (List.mem_cons_of_mem _ hb)
    rw [List.flatMap_cons, tail, List.flatMap_append, List.flatMap_append, List.flatMap_cons,
      ← List.append_assoc, move, List.append_assoc]

/-! ## Totals -/

/-- The definitions found in a file; one that was not parsed has none. -/
def counted (r : FileReport) : Tally := r.tally?.getD .zero

theorem total_eq (rs : List FileReport) :
    total rs = ⟨(rs.map fun r => r.counted.operations).sum,
      (rs.map fun r => r.counted.fragments).sum⟩ := by
  have fold (ts : List Tally) (start : Tally) : ts.foldl .add start =
      ⟨start.operations + (ts.map Tally.operations).sum,
        start.fragments + (ts.map Tally.fragments).sum⟩ := by
    induction ts generalizing start with
    | nil => rfl
    | cons t ts ih =>
      rw [List.foldl_cons, ih]
      simp only [Tally.add, List.map_cons, List.sum_cons, Nat.add_assoc]
  rw [total, fold]
  induction rs with
  | nil => rfl
  | cons r rs ih =>
    rw [Tally.mk.injEq] at ih ⊢
    cases hr : r.tally? with
    | none =>
      rw [List.filterMap_cons_none hr, ih.1, ih.2]
      simp [counted, hr, Tally.zero]
    | some t =>
      simp only [Tally.zero, Nat.zero_add] at ih
      simp [List.filterMap_cons_some hr, counted, hr, Tally.zero, ih.1, ih.2]

theorem total_perm (perm : rs.Perm rs') : total rs = total rs' := by
  rw [total_eq, total_eq, (perm.map _).sum_nat, (perm.map _).sum_nat]

/-! ## What is printed -/

/-- What a report adds to the text when something failed. -/
def noted (r : FileReport) : List Char :=
  match r.failure? with
  | some message => message.toList ++ ['\n']
  | none => []

/-- The last line when something failed. -/
def closing (rs : List FileReport) : String :=
  failureSign ++ " " ++ toString (rs.filterMap failure?).length ++ " of " ++ toString rs.length ++
    " GraphQL files failed to parse."

theorem lines_intercalate {texts : List String} (h : texts ≠ []) :
    ("\n".intercalate texts ++ "\n").toList = texts.flatMap fun t => t.toList ++ ['\n'] := by
  induction texts with
  | nil => exact absurd rfl h
  | cons t ts ih =>
    cases ts with
    | nil => simp
    | cons u us =>
      rw [String.intercalate_cons_cons, String.append_assoc, String.toList_append, ih (by simp)]
      simp

theorem flatMap_noted (rs : List FileReport) :
    (rs.filterMap failure?).flatMap (fun t => t.toList ++ ['\n']) = rs.flatMap noted := by
  induction rs with
  | nil => rfl
  | cons r rs ih =>
    rw [List.flatMap_cons, ← ih]
    cases hr : r.failure? with
    | none => rw [List.filterMap_cons_none hr, noted, hr]; rfl
    | some m => rw [List.filterMap_cons_some hr, noted, hr]; rfl

/-- A check that fails prints the messages in the order of paths, and a last line
that does not depend on the order. -/
theorem summary_of_failures (skipped : Nat) (h : rs.filterMap failure? ≠ []) :
    summary skipped rs =
      .error (String.ofList ((sorted rs).flatMap noted) ++ closing rs) := by
  have failures : (rs.filterMap failure?).Perm ((sorted rs).filterMap failure?) :=
    ((sorted_perm rs).symm.filterMap failure?)
  have some : (sorted rs).filterMap failure? ≠ [] := fun e => h (List.perm_nil.1 (e ▸ failures))
  have lines := lines_intercalate some
  rw [flatMap_noted] at lines
  rw [summary, if_neg (by simpa using some), ← lines, String.ofList_toList, closing,
    failures.length_eq]
  simp only [String.append_assoc]

theorem closing_perm (perm : rs.Perm rs') : closing rs = closing rs' := by
  rw [closing, closing, (perm.filterMap failure?).length_eq, perm.length_eq]

theorem sorted_failures_nil (h : rs.filterMap failure? = []) :
    (sorted rs).filterMap failure? = [] :=
  List.perm_nil.1 (h ▸ (sorted_perm rs).filterMap failure?)

theorem summary_of_success (skipped : Nat) (h : rs.filterMap failure? = []) :
    ∃ text, summary skipped rs = .ok text :=
  ⟨_, by rw [summary, sorted_failures_nil h]; rfl⟩

/-- What is printed does not depend on the order if ties may change places. -/
theorem summary_perm (skipped : Nat) (perm : rs.Perm rs')
    (ties : ∀ a ∈ rs, ∀ b ∈ rs, Path.parts a.path = Path.parts b.path →
      a.noted ++ b.noted = b.noted ++ a.noted) :
    summary skipped rs = summary skipped rs' := by
  by_cases h : rs.filterMap failure? = []
  · have h' : rs'.filterMap failure? = [] := List.perm_nil.1 (h ▸ (perm.filterMap failure?).symm)
    rw [summary, summary, sorted_failures_nil h, sorted_failures_nil h', total_perm perm,
      perm.length_eq]
  · have h' : rs'.filterMap failure? ≠ [] := fun e =>
      h (List.perm_nil.1 (e ▸ perm.filterMap failure?))
    have order : (sorted rs).Perm (sorted rs') :=
      (sorted_perm rs).trans (perm.trans (sorted_perm rs').symm)
    have same : (sorted rs).flatMap noted = (sorted rs').flatMap noted := by
      refine flatMap_of_sorted order (sorted_pairwise rs) (sorted_pairwise rs') ?_
      intro a ha b hb hab hba
      exact ties a ((sorted_perm rs).subset ha) b ((sorted_perm rs).subset hb)
        (Path.isLE_antisymm hab hba)
    rw [summary_of_failures skipped h, summary_of_failures skipped h', same, closing_perm perm]

/-! ## Orders -/

variable {outcome : String → Except String Tally} {skipped : Nat} {paths order : List String}

theorem reports_perm (outcome : String → Except String Tally) (perm : order.Perm paths) :
    (reports outcome order).Perm (reports outcome paths) := perm.map _

theorem reports_path (outcome : String → Except String Tally) (order : List String) :
    (reports outcome order).map path = order := by
  rw [reports, List.map_map]
  exact List.map_id order

theorem noted_error (path message : String) :
    noted ⟨path, .error message⟩ = message.toList ++ ['\n'] := rfl

theorem noted_ok (path : String) (t : Tally) : noted ⟨path, .ok t⟩ = [] := rfl

/-- What two files add to the text may change places if their messages may. -/
theorem noted_comm_iff {p q : String} :
    noted ⟨p, outcome p⟩ ++ noted ⟨q, outcome q⟩ =
        noted ⟨q, outcome q⟩ ++ noted ⟨p, outcome p⟩ ↔
      ∀ m n, outcome p = .error m → outcome q = .error n → m ++ "\n" ++ n = n ++ "\n" ++ m := by
  have texts {m n : String} : m.toList ++ ['\n'] ++ (n.toList ++ ['\n']) =
      n.toList ++ ['\n'] ++ (m.toList ++ ['\n']) ↔ m ++ "\n" ++ n = n ++ "\n" ++ m := by
    rw [← String.toList_inj]
    simp only [String.toList_append, ← List.append_assoc, List.append_left_inj]
    rfl
  cases outcome p with
  | ok t => simp [noted_ok]
  | error m =>
    cases outcome q with
    | ok t => simp [noted_ok]
    | error n =>
      rw [noted_error, noted_error, texts]
      simp

/-- Two paths of the same parts next to each other are in order both ways. -/
theorem sorted_swapped (outcome : String → Except String Tally) {p q : String}
    {before after : List String} (same : Path.parts p = Path.parts q)
    (h : (before ++ p :: after).Pairwise fun a b => (Path.compare a b).isLE) :
    sorted (reports outcome (before ++ p :: q :: after)) =
        reports outcome (before ++ p :: q :: after) ∧
      sorted (reports outcome (before ++ q :: p :: after)) =
        reports outcome (before ++ q :: p :: after) := by
  have left (x : String) : Path.compare q x = Path.compare p x := by
    rw [Path.compare, Path.compare, same]
  have right (x : String) : Path.compare x q = Path.compare x p := by
    rw [Path.compare, Path.compare, same]
  have self : (Path.compare p p).isLE := by rw [Path.compare_eq_iff.2 rfl]; rfl
  constructor <;>
  · refine sorted_of_pairwise (List.pairwise_map.2 ?_)
    simp only [List.pairwise_append, List.pairwise_cons, List.forall_mem_cons, imp_and, forall_and,
      precedes, left, right] at h ⊢
    tauto

/-- If two paths of the same parts stand next to each other in an order that is
sorted, what is printed tells in which order unless their messages read the same. -/
theorem comm_of_swapped {p q : String} (before after : List String)
    (parts : Path.parts p = Path.parts q)
    (hsorted : (before ++ p :: after).Pairwise fun a b => (Path.compare a b).isLE)
    (equal : printed outcome skipped (before ++ p :: q :: after) =
      printed outcome skipped (before ++ q :: p :: after))
    {m n : String} (hm : outcome p = .error m) (hn : outcome q = .error n) :
    m ++ "\n" ++ n = n ++ "\n" ++ m := by
  obtain ⟨first, second⟩ := sorted_swapped outcome parts hsorted
  have swap : (before ++ q :: p :: after).Perm (before ++ p :: q :: after) :=
    (List.Perm.swap p q after).append_left before
  have failed (order : List String) (h : p ∈ order) :
      (reports outcome order).filterMap failure? ≠ [] := by
    refine List.ne_nil_of_mem (a := m) (List.mem_filterMap.2 ⟨⟨p, outcome p⟩, ?_, ?_⟩)
    · exact List.mem_map_of_mem h
    · rw [failure?, hm]
  rw [printed, printed, summary_of_failures skipped (failed _ (by simp)),
    summary_of_failures skipped (failed _ (by simp)), first, second,
    closing_perm (reports_perm outcome swap)] at equal
  have texts := congrArg String.toList (Except.error.inj equal)
  simp only [String.toList_append, String.toList_ofList, reports, List.map_append, List.map_cons,
    List.flatMap_append, List.flatMap_cons, List.append_assoc, List.append_cancel_left_eq] at texts
  simp only [← List.append_assoc, List.append_cancel_right_eq] at texts
  exact noted_comm_iff.1 texts m n hm hn

/-- Some order of the paths is sorted with two of the same parts next to each other. -/
theorem exists_sorted_next (outcome : String → Except String Tally) {p q : String} (hp : p ∈ paths)
    (hq : q ∈ paths) (hpq : p ≠ q) :
    ∃ before after, (before ++ p :: q :: after).Perm paths ∧
      (before ++ p :: after).Pairwise fun a b => (Path.compare a b).isLE := by
  let others := (paths.erase p).erase q
  have split : (p :: q :: others).Perm paths := by
    have hq' : q ∈ paths.erase p := (List.mem_erase_of_ne hpq.symm).2 hq
    exact ((List.perm_cons_erase hq').symm.cons p).trans (List.perm_cons_erase hp).symm
  -- The others are sorted together with `p`, and `q` is put behind it.
  let line := (sorted (reports outcome (p :: others))).map path
  have perm : line.Perm (p :: others) := by
    have h := (sorted_perm (reports outcome (p :: others))).map path
    rwa [reports_path] at h
  have inOrder : line.Pairwise fun a b => (Path.compare a b).isLE :=
    List.pairwise_map.2 (sorted_pairwise _)
  obtain ⟨before, after, hline⟩ := List.append_of_mem (perm.symm.subset List.mem_cons_self)
  refine ⟨before, after, ?_, hline ▸ inOrder⟩
  have rest : (before ++ after).Perm others := by
    rw [hline] at perm
    exact (List.perm_middle.symm.trans perm).cons_inv
  have front : (before ++ p :: q :: after).Perm (p :: q :: (before ++ after)) :=
    List.perm_middle.trans (List.perm_middle.cons p)
  exact front.trans (((rest.cons q).cons p).trans split)

/-- If what is printed does not depend on the order, the messages of two files
named by the same parts read the same in either order. -/
theorem comm_of_printed_eq
    (same : ∀ order order' : List String, order.Perm paths → order'.Perm paths →
      printed outcome skipped order = printed outcome skipped order')
    {p q : String} (hp : p ∈ paths) (hq : q ∈ paths) (parts : Path.parts p = Path.parts q)
    {m n : String} (hm : outcome p = .error m) (hn : outcome q = .error n) :
    m ++ "\n" ++ n = n ++ "\n" ++ m := by
  by_cases hpq : p = q
  · subst hpq
    obtain rfl : m = n := by simpa [hm] using hn
    rfl
  obtain ⟨before, after, perm, hsorted⟩ := exists_sorted_next outcome hp hq hpq
  have swap : (before ++ q :: p :: after).Perm (before ++ p :: q :: after) :=
    (List.Perm.swap p q after).append_left before
  exact comm_of_swapped before after parts hsorted (same _ _ perm (swap.trans perm)) hm hn

/-- What a check gives in whatever order its tasks end. -/
structure Settled (outcome : String → Except String Tally) (skipped : Nat)
    (paths order : List String) : Prop where
  complete : (sorted (reports outcome order)).Perm (reports outcome paths)
  inOrder : (sorted (reports outcome order)).Pairwise fun a b => a.precedes b
  operations : (total (reports outcome order)).operations =
    ((reports outcome paths).map fun r => r.counted.operations).sum
  fragments : (total (reports outcome order)).fragments =
    ((reports outcome paths).map fun r => r.counted.fragments).sum
  exitCode : ∀ log, (Outcome.ofPrintout log (printed outcome skipped order)).exitCode =
    if paths.all fun p => (outcome p).isOk then 0 else 1

theorem settled (outcome : String → Except String Tally) (skipped : Nat)
    (perm : order.Perm paths) : Settled outcome skipped paths order := by
  have rperm := reports_perm outcome perm
  refine ⟨(sorted_perm _).trans rperm, sorted_pairwise _, ?_, ?_, fun log => ?_⟩
  · rw [total_perm rperm, total_eq]
  · rw [total_perm rperm, total_eq]
  · have failures : (reports outcome order).filterMap failure? = [] ↔
        paths.all fun p => (outcome p).isOk := by
      rw [List.filterMap_eq_nil_iff, List.all_eq_true, reports, List.forall_mem_map]
      refine forall_congr' fun p => imp_congr perm.mem_iff ?_
      cases hp : outcome p <;> simp [failure?, Except.isOk, Except.toBool]
    by_cases h : (reports outcome order).filterMap failure? = []
    · obtain ⟨text, printout⟩ := summary_of_success skipped h
      rw [printed, printout, if_pos (failures.1 h)]
      rfl
    · rw [printed, summary_of_failures skipped h, if_neg fun all => h (failures.2 all)]
      rfl

end FileReport

open FileReport

/-- Whatever the order in which its tasks end, a check sums up all files, reports
on them in the order of their paths and fails if one of them failed. What it
prints is the same for all orders exactly if the messages of files that are named
by the same parts read the same in either order. -/
theorem check_order_free_iff (outcome : String → Except String Tally) (skipped : Nat)
    (paths : List String) :
    (∀ order : List String, order.Perm paths → Settled outcome skipped paths order) ∧
      ((∀ order order' : List String, order.Perm paths → order'.Perm paths →
          printed outcome skipped order = printed outcome skipped order') ↔
        ∀ p ∈ paths, ∀ q ∈ paths, Path.parts p = Path.parts q → ∀ m n, outcome p = .error m →
          outcome q = .error n → m ++ "\n" ++ n = n ++ "\n" ++ m) := by
  refine ⟨fun order perm => settled outcome skipped perm, ?_, ?_⟩
  · intro same p hp q hq parts m n hm hn
    exact comm_of_printed_eq same hp hq parts hm hn
  · intro comm order order' perm perm'
    refine summary_perm skipped (reports_perm outcome (perm.trans perm'.symm)) ?_
    intro a ha b hb parts
    obtain ⟨p, hp, rfl⟩ := List.mem_map.1 ha
    obtain ⟨q, hq, rfl⟩ := List.mem_map.1 hb
    exact noted_comm_iff.2 (comm p (perm.subset hp) q (perm.subset hq) parts)

/-- Two files that cannot be read, under different names. -/
theorem unreadable_order_free :
    printed (fun path => .error (readFailure path .notText)) 0 ["a.graphql", "b.graphql"] =
      printed (fun path => .error (readFailure path .notText)) 0 ["b.graphql", "a.graphql"] := by
  have free := (check_order_free_iff (fun path => .error (readFailure path .notText)) 0
    ["a.graphql", "b.graphql"]).2.2
  refine free ?_ _ _ (.refl _) (.swap _ _ [])
  have apart : Path.parts "a.graphql" ≠ Path.parts "b.graphql" := by decide
  simp [apart, apart.symm]

/-! ## The command -/

/-- What comes of checking a file. -/
def fileOutcome (disk : Disk Id) (path : String) : Except String Tally :=
  match (disk.source path : Except ReadError Source) with
  | .error e => .error (readFailure path e)
  | .ok source =>
    match Document.parse .unlocated source with
    | .error e => .error e.detailed
    | .ok document => .ok document.tally

/-- The result of a step hands over to the next. -/
theorem bind_fst {α β : Type} (x : Logged Id α) (f : α → Logged Id β) (log : List LogEntry) :
    ((x >>= f).run log).fst = ((f (x.run log).fst).run (x.run log).snd).fst := rfl

/-- A text is reported on as it is parsed. -/
theorem parsed_fst (path : String) (source : Source) (log : List LogEntry) :
    ((do match ← parseLogged .unlocated source with
          | .error e => return ⟨path, .error e.detailed⟩
          | .ok document => return ⟨path, .ok document.tally⟩ : Logged Id FileReport).run log).fst =
      ⟨path, match Document.parse .unlocated source with
        | .error e => .error e.detailed
        | .ok document => .ok document.tally⟩ := by
  have parsed : ((parseLogged .unlocated source : Logged Id _).run log).fst =
      Document.parse .unlocated source := rfl
  rw [bind_fst, parsed]
  cases Document.parse .unlocated source with
  | error e => rfl
  | ok d => rfl

theorem checkFile_fst (disk : Disk Id) (path : String) (log : List LogEntry) :
    ((checkFile disk path).run log).fst = ⟨path, fileOutcome disk path⟩ := by
  unfold checkFile fileOutcome
  cases (disk.source path : Except ReadError Source) with
  | error e => rfl
  | ok source => exact parsed_fst path source log

/-- Each result depends on its own member only, so the log in between does not matter. -/
theorem mapM_fst {α β : Type} {f : α → Logged Id β} {g : α → β}
    (h : ∀ a log, ((f a).run log).fst = g a) (as : List α) (log : List LogEntry) :
    ((as.mapM f).run log).fst = as.map g := by
  induction as generalizing log with
  | nil => rfl
  | cons a as ih =>
    rw [List.mapM_cons, List.map_cons, ← h a log, ← ih ((f a).run log).snd]
    rfl

/-- Once files are found without failures, a check prints what checks print that end
in the order in which the files were found. -/
theorem checkFiles_printed (disk : Disk Id) (extensions roots : List String)
    (log : List LogEntry) (found : Findings)
    (hfound : ((findFiles disk extensions roots).run log).fst = found) (h : found.failures = []) :
    ((checkFiles disk extensions roots).run log).fst =
      printed (fileOutcome disk) found.skipped found.paths := by
  unfold checkFiles
  rw [bind_fst, hfound, h]
  simp only [List.isEmpty_nil, Bool.not_true, Bool.false_eq_true, if_false]
  rw [bind_fst, bind_fst, mapM_fst (checkFile_fst disk)]
  rw [bind_fst]
  rfl

/-! ## One file under two spellings -/

/-- A folder whose only file is a brace that is not closed. -/
def openFile : Folder := .ofFiles [("p/a.graphql", "\x7b".toUTF8)]

def openBraceError (name : String) : ParseError :=
  ⟨⟨.unexpectedEnd [.name], .field, .emptyAt ⟨0, 1, 1, 1⟩, []⟩, ⟨"\x7b", name, ⟨1, 1⟩⟩⟩

theorem parse_openBrace (name : String) :
    Document.parse .unlocated ⟨"\x7b", name, ⟨1, 1⟩⟩ = .error (openBraceError name) := by
  have tokens : tokenize "\x7b" =
      [⟨.punctuator .openBrace, ⟨⟨0, 0, 0, 0⟩, ⟨0, 1, 1, 1⟩⟩⟩,
        ⟨.endOfInput, .emptyAt ⟨0, 1, 1, 1⟩⟩] := by
    have chars : "\x7b".toList = ['\x7b'] := by decide
    rw [tokenize, Token.listOf, chars, Lexical.listFrom_cons (c := '\x7b') rfl,
      Lexical.listFrom_end rfl]
    rfl
  rw [Document.parse, tokens]
  rfl

theorem fileOutcome_openFile (path : String) (h : (openFile.disk.source path :
      Except ReadError Source) = .ok ⟨"\x7b", path, ⟨1, 1⟩⟩) :
    fileOutcome openFile.disk path = .error (openBraceError path).detailed := by
  rw [fileOutcome, h]
  dsimp only
  rw [parse_openBrace]

/-- A file that is found under two spellings of its path is reported on in the order
in which the checks end. -/
theorem twoSpellings_order_shows :
    ((findFiles openFile.disk ["graphql"] ["p/a.graphql", "p//a.graphql"]).run []).fst =
        ⟨["p/a.graphql", "p//a.graphql"], 0, []⟩ ∧
      ["p//a.graphql", "p/a.graphql"].Perm ["p/a.graphql", "p//a.graphql"] ∧
      printed (fileOutcome openFile.disk) 0 ["p/a.graphql", "p//a.graphql"] ≠
        printed (fileOutcome openFile.disk) 0 ["p//a.graphql", "p/a.graphql"] := by
  refine ⟨rfl, .swap _ _ [], fun equal => ?_⟩
  have first := fileOutcome_openFile "p/a.graphql" rfl
  have second := fileOutcome_openFile "p//a.graphql" rfl
  have parts : Path.parts "p/a.graphql" = Path.parts "p//a.graphql" := by decide
  have comm := comm_of_swapped [] [] parts (List.pairwise_singleton _ _) equal first second
  exact absurd comm (by decide)

end QueryDoc
