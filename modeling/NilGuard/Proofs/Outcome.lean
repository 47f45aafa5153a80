import Mathlib
import NilGuard.Proofs.Emission
import NilGuard.Proofs.Requirements
/-! What a run leaves behind. When a requirement is not met, the first such requirement is the
only error in the log and nothing is opened for output. Otherwise there are results, in which
no function broke off, and the output gets one record for each diagnostic, whatever the order
in which the workers hand them over. -/
namespace NilGuard.Cli

/-- The errors in the log of a run. -/
def Outcome.errors (u : Outcome) : List Line := u.log.filter (·.level = .error)

/-- The line about a failure. -/
def Failure.line (f : Failure) : Line := ⟨.error, .run, .plain f.message⟩

/-- Where the output goes: to a file that can be written, or else to the standard output. -/
def Opens (ws : Workspace) (o : Options) : Option Path → Prop
  | none => o.output = .standard
  | some path => ∃ name, o.output = .named name ∧ ws.resolve? name = some path ∧
      ws.canWrite path = true

/-- The output gets a text, and nothing else is written. -/
def Outcome.Delivers (u : Outcome) (ws : Workspace) (text : String) : Option Path → Prop
  | none => u.stdout = text ∧ u.leave ws = ws
  | some path => u.stdout = "" ∧ (u.leave ws).lookup path = some (.file text) ∧
      ∀ other ≠ path, ∀ contents, (u.leave ws).lookup other = some (.file contents) ↔
        ws.lookup other = some (.file contents)

/-- Results of a check by a number of workers. They are in order, no function broke off, and
they are those of one worker up to the order of diagnostics that are tied. -/
structure IsChecked (p : Program) (targets : List Target) (reportConditions : Bool) (jobs : Int)
    (results : Results) : Prop where
  byWorkers : ∃ choices, p.checkBy targets reportConditions jobs choices = .ok results
  alone : ∃ r, p.check targets reportConditions = .ok r ∧ results.IsRearranged r ∧
    (jobs = 1 → results = r)
  sorted : results.diagnostics.Pairwise (·.le ·)
  internal : results.internalErrors = []

section Files

variable {ws : Workspace} {p q : Path} {contents text : String}

theorem lookup_eq_file_iff :
    ws.lookup p = some (.file contents) ↔ ws.entries.lookup p = some (.file contents) := by
  unfold Workspace.lookup
  cases ws.entries.lookup p with
  | some e => exact Iff.rfl
  | none => simp

theorem lookup_filter_of_ne (hNe : q ≠ p) (entries : List (Path × Entry)) :
    (entries.filter (·.1 != p)).lookup q = entries.lookup q := by
  induction entries with
  | nil => rfl
  | cons e es ih =>
      by_cases hPath : e.1 = p
      · have hOther : (q == e.1) = false := by simpa [hPath] using hNe
        rw [List.filter_cons_of_neg (by simpa using hPath), ih, List.lookup_cons, hOther]
      · rw [List.filter_cons_of_pos (by simpa using hPath), List.lookup_cons, List.lookup_cons, ih]

@[simp] theorem lookup_write (ws : Workspace) (p : Path) (text : String) :
    (ws.write p text).lookup p = some (.file text) :=
  lookup_eq_file_iff.mpr (by simp [Workspace.write])

/-- A file that is written takes no other file's place. -/
theorem lookup_write_of_ne (hNe : q ≠ p) :
    (ws.write p text).lookup q = some (.file contents) ↔ ws.lookup q = some (.file contents) := by
  have hOther : (q == p) = false := by simpa using hNe
  rw [lookup_eq_file_iff, lookup_eq_file_iff, Workspace.write, List.lookup_cons, hOther,
    lookup_filter_of_ne hNe]

end Files

section Quiet

variable (ws : Workspace) (o : Options)

theorem isQuiet_log {level : Level} (hLevel : level ≠ .error) (source : Source) (message : String) :
    (log level source message).IsQuiet := by
  intro l hl
  rw [List.mem_singleton.mp hl]
  exact hLevel

theorem isQuiet_workers : (workers o).IsQuiet := by
  unfold workers
  split
  case h_1 => exact Logged.isQuiet_throw _
  case h_2 jobs _ =>
    split
    case isTrue => exact Logged.isQuiet_throw _
    case isFalse => exact Logged.isQuiet_pure _

theorem isQuiet_namedTarget (spec : Option String) : (namedTarget spec).IsQuiet := by
  cases spec with
  | none => exact Logged.isQuiet_throw _
  | some text => exact Logged.isQuiet_ofExcept _

theorem isQuiet_locate (input : Input) (name : String) : (locate ws input name).IsQuiet := by
  unfold locate
  split
  case h_1 => exact Logged.isQuiet_throw _
  case h_2 path _ =>
    split
    case h_1 => exact Logged.isQuiet_throw _
    case h_2 => exact Logged.isQuiet_throw _
    case h_3 => exact Logged.isQuiet_pure _

theorem isQuiet_fileTargets : (fileTargets ws o).IsQuiet := by
  cases hName : o.fileName? with
  | none =>
      rw [fileTargets_of_none hName]
      exact Logged.isQuiet_pure _
  | some name =>
      rw [fileTargets_of_some hName]
      refine (isQuiet_locate ws _ _).bind fun path => ?_
      unfold readTargets
      split
      case h_1 =>
        exact (Logged.isQuiet_ofExcept _).bind fun ts =>
          (isQuiet_log (by decide) _ _).bind fun _ => Logged.isQuiet_pure ts
      case h_2 => exact Logged.isQuiet_throw _

theorem isQuiet_loadDump (p : Program) (path : Path) : (loadDump ws p path).IsQuiet := by
  refine (isQuiet_log (by decide) _ _).bind fun _ => ?_
  split
  case h_2 => exact Logged.isQuiet_throw _
  case h_1 contents _ =>
    refine Logged.IsQuiet.bind ?_ fun _ => ?_
    · intro l hl
      obtain ⟨fn, -, rfl⟩ := List.mem_map.mp hl
      exact Level.noConfusion
    · split
      case h_1 => exact Logged.isQuiet_pure _
      case h_2 => split <;> exact Logged.isQuiet_throw _

theorem level_of_mem_passedOver {t : Target} {r : Resolution} {l : Line} (h : l ∈ passedOver t r) :
    l.level = .debug := by
  cases r with
  | found target => exact absurd h List.not_mem_nil
  | noFunction => rw [List.mem_singleton.mp h]
  | noType => rw [List.mem_singleton.mp h]
  | noMethod => rw [List.mem_singleton.mp h]

theorem isQuiet_resolveTargets (p : Program) (ts : List Target) :
    (resolveTargets p ts).IsQuiet := by
  refine (Logged.isQuiet_mapM (fun t => ?_) ts).bind fun rs =>
    (isQuiet_log (by decide) _ _).bind fun _ => Logged.isQuiet_pure _
  refine (Logged.isQuiet_ofExcept _).bind fun r =>
    Logged.IsQuiet.bind ?_ fun _ => Logged.isQuiet_pure r
  intro l hl
  rw [level_of_mem_passedOver hl]
  decide

/-- No error is logged before all requirements are met. -/
theorem isQuiet_prepare : (prepare ws o).IsQuiet := by
  rw [prepare_eq]
  refine (isQuiet_workers o).bind fun jobs => ?_
  refine (Logged.isQuiet_mapM isQuiet_namedTarget _).bind fun named => ?_
  refine (isQuiet_fileTargets ws o).bind fun listed => ?_
  refine (Logged.isQuiet_ofExcept _).bind fun targets => ?_
  refine (Logged.isQuiet_mapM (isQuiet_locate ws _) _).bind fun paths => ?_
  refine (Logged.isQuiet_foldlM (isQuiet_loadDump ws) _ _).bind fun p => ?_
  exact (isQuiet_resolveTargets p targets).bind fun resolved => Logged.isQuiet_pure _

theorem level_of_eventLine? {fn : Function} {e : Event} {l : Line} (h : eventLine? fn e = some l) :
    l.level = .debug := by
  cases e with
  | condition d => cases h
  | tooFewArguments location callee count index =>
      simp only [eventLine?, Option.bind_eq_bind, Option.bind_eq_some_iff] at h
      obtain ⟨_, -, _, -, hLine⟩ := h
      cases hLine
      rfl
  | nilArgument d =>
      simp only [eventLine?, Option.bind_eq_bind, Option.bind_eq_some_iff] at h
      obtain ⟨_, -, hLine⟩ := h
      cases hLine
      rfl
  | learned block facts =>
      cases h
      rfl

theorem level_of_mem_ofFunction {settings : Settings} {fn : Function}
    (hCrash : (fn.events settings).crash = none) {l : Line}
    (h : .line l ∈ Notice.ofFunction settings fn) : l.level = .debug := by
  simp only [Notice.ofFunction, hCrash, List.append_nil] at h
  obtain ⟨e, -, h⟩ := List.mem_flatMap.mp h
  have hLine : eventLine? fn e = some l := by simpa [Notice.ofEvent] using h
  exact level_of_eventLine? hLine

theorem isQuiet_log_notices {settings : Settings} {fns : List Function} (jobs : Int)
    (choices : List Nat) (hCrash : ∀ fn ∈ fns, (fn.events settings).crash = none) :
    (Logged.log ((Pool.collect jobs choices (fns.map (Notice.ofFunction settings))).filterMap
      Notice.line?) : Step Unit).IsQuiet := by
  intro l hl
  obtain ⟨notice, hNotice, hLine⟩ := List.mem_filterMap.mp hl
  have hAny := (Pool.arrives_collect jobs choices _).perm.mem_iff.mp hNotice
  rw [← List.flatMap_def] at hAny
  obtain ⟨fn, hfn, hAny⟩ := List.mem_flatMap.mp hAny
  cases notice with
  | diagnostic d => cases hLine
  | line l' =>
      cases hLine
      rw [level_of_mem_ofFunction (hCrash fn hfn) hAny]
      decide

/-- A check in which no function breaks off logs no error, in whatever order its notices come. -/
theorem isQuiet_checkFunctions {settings : Settings} {fns : List Function} (jobs : Int)
    (choices : List Nat) (hCrash : ∀ fn ∈ fns, (fn.events settings).crash = none) :
    (checkFunctions settings jobs choices fns).IsQuiet := by
  have hBodies : ∀ fn ∈ fns.filter Function.hasBody, (fn.events settings).crash = none :=
    fun fn hfn => hCrash fn (List.mem_filter.mp hfn).1
  have hLines := isQuiet_log_notices jobs choices hBodies
  simp only [checkFunctions]
  split
  case isTrue =>
    exact (isQuiet_log (by decide) _ _).bind fun _ => hLines.bind fun _ =>
      (isQuiet_log (by decide) _ _).bind fun _ => Logged.isQuiet_pure _
  case isFalse =>
    exact hLines.bind fun _ => (isQuiet_log (by decide) _ _).bind fun _ => Logged.isQuiet_pure _

end Quiet

section Analysis

variable {ws : Workspace} {o : Options} {f : Failure}

/-- A run checks what it has prepared. -/
theorem analyse_eq (ws : Workspace) (o : Options) (choices : List Nat) :
    analyse ws o choices = prepare ws o >>= fun x =>
      checkFunctions (.ofTargets x.2.2 o.reportConditions) x.1 choices x.2.1.functions := by
  simp only [analyse, prepare, bind_assoc, pure_bind]
  rfl

theorem filterMap_ofEvent (fn : Function) (e : Event) :
    (Notice.ofEvent fn e).filterMap Notice.diagnostic? = e.diagnostic?.toList := by
  rw [Notice.ofEvent, List.filterMap_append]
  cases eventLine? fn e <;> cases e.diagnostic? <;> rfl

/-- Apart from lines, the notices about a function are its reports. -/
theorem filterMap_ofFunction (settings : Settings) (fn : Function) :
    (Notice.ofFunction settings fn).filterMap Notice.diagnostic? = fn.reports settings := by
  have hEvents : ((fn.events settings).events.flatMap (Notice.ofEvent fn)).filterMap
      Notice.diagnostic? = (fn.events settings).diagnostics := by
    rw [List.filterMap_flatMap, Events.diagnostics, List.filterMap_eq_flatMap_toList]
    exact List.flatMap_congr fun e _ => filterMap_ofEvent fn e
  rw [Notice.ofFunction, List.filterMap_append, hEvents, Function.reports]
  cases (fn.events settings).crash <;> rfl

/-- The results of a run are those of a check by its workers. -/
theorem exists_result_checkFunctions (settings : Settings) (jobs : Int) (choices : List Nat)
    (fns : List Function) : ∃ choices', (checkFunctions settings jobs choices fns).result =
      .ok (checkBy settings jobs choices' fns) := by
  obtain ⟨choices', hSame⟩ := Pool.exists_collect_filterMap Notice.diagnostic? jobs choices
    ((fns.filter Function.hasBody).map (Notice.ofFunction settings))
  have hReports : ((fns.filter Function.hasBody).map (Notice.ofFunction settings)).map
      (List.filterMap Notice.diagnostic?) =
        (fns.filter Function.hasBody).map (·.reports settings) := by
    rw [List.map_map]
    exact List.map_congr_left fun fn _ => filterMap_ofFunction settings fn
  refine ⟨choices', ?_⟩
  rw [checkBy, ← hReports, hSame]
  simp only [checkFunctions]
  split <;> rfl

theorem analyse_of_error (h : (prepare ws o).result = .error f) (choices : List Nat) :
    analyse ws o choices = ⟨(prepare ws o).lines, .error f⟩ := by
  rw [analyse_eq, Logged.bind_of_error h]

/-- There are results only when all requirements are met. -/
theorem isMet_of_result_analyse {results : Results} {choices : List Nat}
    (h : (analyse ws o choices).result = .ok results) (r : Requirement) : IsMet ws o r := by
  intro f hViolates
  obtain ⟨q, g, hFirst⟩ := exists_isFirstViolation hViolates
  rw [analyse_of_error (result_prepare_eq_error_iff.mpr ⟨q, hFirst⟩)] at h
  cases h

section Prepared

variable {targets : List Target} {p : Program} {resolved : List ResolvedTarget}

theorem IsPrepared.exists_texts (h : IsPrepared ws o targets p) :
    ∃ texts, Program.loadAll? {} texts = some p := by
  obtain ⟨paths, -, contents, -, hLoad⟩ := h.program
  exact ⟨_, hLoad⟩

theorem Names.isShort {ts : List Target} (h : Names o ts) :
    ∀ t ∈ ts, Numeral.IsShort t.position := by
  unfold Names at h
  generalize o.targets = specs at h
  induction h with
  | nil => simp
  | cons hFirst _ ih =>
      obtain ⟨text, -, hParse⟩ := hFirst
      exact List.forall_mem_cons.mpr ⟨Target.isShort_of_parse hParse, ih⟩

/-- The positions of all targets have been read. -/
theorem IsPrepared.isShort (h : IsPrepared ws o targets p) :
    ∀ t ∈ targets, Numeral.IsShort t.position := by
  obtain ⟨named, listed, hNames, hLists, rfl⟩ := h.targets
  intro t ht
  rcases List.mem_append.mp ht with ht | ht
  · exact hNames.isShort t ht
  · cases hLists with
    | noFile => exact absurd ht List.not_mem_nil
    | file _ _ _ hParse => exact Target.isShort_of_parseFile hParse t ht

variable (hPrepared : IsPrepared ws o targets p)
  (hResolved : Target.resolveAll p targets = .ok resolved)
include hPrepared hResolved

theorem IsPrepared.isWritable (jobs : Int) (choices : List Nat) :
    ∀ d ∈ (checkBy (.ofTargets resolved o.reportConditions) jobs choices p.functions).diagnostics,
      d.IsWritable := by
  obtain ⟨texts, hLoaded⟩ := hPrepared.exists_texts
  exact isWritable_of_mem_checkBy hLoaded (Target.nonneg_of_resolveAll hResolved)
    (Target.isShort_of_resolveAll hResolved hPrepared.isShort) o.reportConditions jobs choices

theorem IsPrepared.isChecked (jobs : Int) (choices : List Nat) :
    IsChecked p targets o.reportConditions jobs
      (checkBy (.ofTargets resolved o.reportConditions) jobs choices p.functions) := by
  constructor
  case byWorkers =>
    refine ⟨choices, ?_⟩
    rw [Program.checkBy, hResolved]
    rfl
  case alone =>
    refine ⟨check (.ofTargets resolved o.reportConditions) p.functions, ?_,
      isRearranged_checkBy _ jobs choices _, ?_⟩
    · rw [Program.check, hResolved]
      rfl
    · rintro rfl
      rw [checkBy, check, Pool.collect, if_neg (by simp), List.flatMap_def]
  case sorted => exact Diagnostic.pairwise_sort _
  case internal =>
    exact Results.internalErrors_of_isBuilt fun d hd =>
      (hPrepared.isWritable hResolved jobs choices d hd).built

end Prepared

/-- When all requirements are met there are results, each of their diagnostics can be written, and
no error was logged on the way. -/
theorem exists_results (hMet : ∀ r, IsMet ws o r) (choices : List Nat) :
    ∃ targets p jobs results, IsPrepared ws o targets p ∧ o.jobs = some jobs ∧
      IsChecked p targets o.reportConditions jobs results ∧
      (∀ d ∈ results.diagnostics, d.IsWritable) ∧
      (analyse ws o choices).result = .ok results ∧ (analyse ws o choices).IsQuiet := by
  cases hResult : (prepare ws o).result with
  | error f =>
      obtain ⟨r, hFirst⟩ := result_prepare_eq_error_iff.mp hResult
      exact absurd hFirst.violates (hMet r f)
  | ok x =>
      obtain ⟨jobs, p, resolved⟩ := x
      obtain ⟨-, hJobs, targets, hPrepared, hResolved⟩ :=
        (settles_prepare ws o (by simp)).2 _ hResult
      obtain ⟨texts, hLoaded⟩ := hPrepared.exists_texts
      have hCrash : ∀ fn ∈ p.functions,
          (fn.events (.ofTargets resolved o.reportConditions)).crash = none := fun fn hfn =>
        (Program.isSound_empty.loadAll? hLoaded fn (List.mem_filter.mp hfn).1).crash_eq_none
          (Target.nonneg_of_resolveAll hResolved)
      obtain ⟨choices', hCheck⟩ := exists_result_checkFunctions
        (.ofTargets resolved o.reportConditions) jobs choices p.functions
      refine ⟨targets, p, jobs, _, hPrepared, hJobs, hPrepared.isChecked hResolved jobs choices',
        hPrepared.isWritable hResolved jobs choices', ?_, ?_⟩
      · rw [analyse_eq, Logged.bind_of_ok hResult, hCheck]
      · rw [analyse_eq, Logged.bind_of_ok hResult]
        intro l hl
        rcases List.mem_append.mp hl with hl | hl
        · exact isQuiet_prepare ws o l hl
        · exact isQuiet_checkFunctions jobs choices hCrash l hl

end Analysis

section Finish

variable {ws : Workspace} {o : Options} {f : Failure} {analysis : Step Results} {tenths : Nat}

theorem finish_of_error (h : analysis.result = .error f) :
    finish ws o analysis tenths =
      { exit := 2
        log := (analysis.lines ++ [f.line]).filter (·.level.isShown o.verbosity)
        made := f.made? } := by
  simp only [finish, Logged.bind_of_error h]
  rfl

theorem destination_of_opens {dest : Option Path} (h : Opens ws o dest) :
    destination ws o = pure dest := by
  unfold destination
  cases dest with
  | none => rw [show o.output = .standard from h]
  | some path =>
      obtain ⟨name, hOutput, hPath, hWrite⟩ := h
      simp only [hOutput, hPath, hWrite, if_true]

theorem finish_of_ok {r : Results} {dest : Option Path} {text : String}
    (h : analysis.result = .ok r) (hDest : Opens ws o dest)
    (hText : render r tenths o.format = { text }) :
    finish ws o analysis tenths =
      { exit := exitCode r
        stdout := if dest.isNone then text else ""
        log := (analysis.lines ++ internalLines r).filter (·.level.isShown o.verbosity)
        written := dest.map (·, text) } := by
  have hRun : (do let results ← analysis; return (results, ← destination ws o)) =
      (⟨analysis.lines, .ok (r, dest)⟩ : Step (Results × Option Path)) := by
    rw [Logged.bind_of_ok h, destination_of_opens hDest, pure_bind, Logged.lines_pure,
      List.append_nil, Logged.result_pure]
  simp only [finish, hRun, hText, if_true]

theorem delivers_of_ok {r : Results} {dest : Option Path} {text : String}
    (h : analysis.result = .ok r) (hDest : Opens ws o dest)
    (hText : render r tenths o.format = { text }) :
    (finish ws o analysis tenths).Delivers ws text dest := by
  rw [finish_of_ok h hDest hText]
  cases dest with
  | none => exact ⟨rfl, rfl⟩
  | some path => exact ⟨rfl, lookup_write ws path _, fun _ hNe _ => lookup_write_of_ne hNe⟩

theorem exit_run {r : Results} {dest : Option Path} {choices : List Nat}
    (h : (analyse ws o choices).result = .ok r) (hDest : Opens ws o dest) :
    (run ws o tenths choices).exit = exitCode r := by
  obtain ⟨_, _, _, results, -, -, -, hWritable, hResult, -⟩ :=
    exists_results (isMet_of_result_analyse h) choices
  obtain rfl : r = results := Except.ok.inj (h.symm.trans hResult)
  obtain ⟨records, -, hText⟩ := exists_render o.format hWritable tenths
  rw [run, finish_of_ok h hDest hText]

/-- Errors are shown however little is asked for. -/
theorem filter_error_shown (lines : List Line) (verbosity : Nat) :
    (lines.filter (·.level.isShown verbosity)).filter (·.level = .error) =
      lines.filter (·.level = .error) := by
  rw [List.filter_filter]
  apply List.filter_congr
  intro l _
  by_cases hLevel : l.level = .error <;> simp [hLevel, Level.isShown]

theorem filter_error_of_isQuiet {α : Type} {x : Step α} (h : x.IsQuiet) :
    x.lines.filter (·.level = .error) = [] := by
  rw [List.filter_eq_nil_iff]
  intro l hl
  simpa using h l hl

theorem exitCode_of_internalErrors_eq_nil {r : Results} (h : r.internalErrors = []) :
    exitCode r = if r.diagnostics = [] then 0 else 1 := by
  rw [exitCode, h, Results.findings_of_internalErrors_eq_nil h]
  cases r.diagnostics <;> rfl

theorem exitCode_eq_one_iff {r : Results} (h : r.internalErrors = []) :
    exitCode r = 1 ↔ r.diagnostics ≠ [] := by
  rw [exitCode_of_internalErrors_eq_nil h]
  by_cases hEmpty : r.diagnostics = [] <;> simp [hEmpty]

theorem exitCode_eq_zero_iff {r : Results} (h : r.internalErrors = []) :
    exitCode r = 0 ↔ r.diagnostics = [] := by
  rw [exitCode_of_internalErrors_eq_nil h]
  by_cases hEmpty : r.diagnostics = [] <;> simp [hEmpty]

/-- Directories are made only on the way to an output. -/
theorem Violates.made?_eq_none {r : Requirement} (h : Violates ws o r f) : f.made? = none := by
  cases h with
  | noNumber => rfl
  | tooFew => rfl
  | malformed h =>
      obtain ⟨_, _, _, _, _, h⟩ := h
      cases h <;> rfl
  | noTargetFile _ h => cases h <;> rfl
  | targetDirectory => rfl
  | malformedFile =>
      unfold Failure.ofTargetError
      split <;> rfl
  | noTargets => rfl
  | noDump h =>
      obtain ⟨_, _, _, _, _, h⟩ := h
      cases h <;> rfl
  | unloadable _ _ h =>
      cases h with
      | directory => rfl
      | @refused contents e _ _ =>
          unfold Failure.ofLoadError
          cases e.message? _ <;> rfl
  | unresolvable _ _ _ _ h =>
      obtain ⟨_, _, _, _, _, _, _, rfl⟩ := h
      rfl

/-- A failure is logged and nothing else happens. -/
theorem run_of_isFirstViolation {r : Requirement} (h : IsFirstViolation ws o r f) (tenths : Nat)
    (choices : List Nat) : run ws o tenths choices =
      { exit := 2
        log := ((prepare ws o).lines ++ [f.line]).filter (·.level.isShown o.verbosity) } := by
  have hAnalyse := analyse_of_error (result_prepare_eq_error_iff.mpr ⟨r, h⟩) choices
  rw [run, hAnalyse, finish_of_error rfl, h.violates.made?_eq_none]

end Finish

/-- A dump with one call, beside an earlier report. -/
def callsWorkspace : Workspace :=
  { directory := .root
    entries := [
      (⟨["calls"]⟩, .file ("(program (package guards (func use (params x)) " ++
        "(func main (block 0 (call guards use nil)))))")),
      (⟨["report"]⟩, .file "kept")] }

def callsOptions : Options :=
  { dumps := ["calls"]
    targets := [some "guards:use"]
    output := .named "report"
    format := .summary }

/-- The same with a second target that has no name, and with a dump that is not there. -/
def faultyOptions : Options :=
  { callsOptions with dumps := ["gone"], targets := [some "guards:use", some "guards"] }

theorem opens_callsOptions : Opens callsWorkspace callsOptions (some ⟨["report"]⟩) :=
  ⟨"report", rfl, by decide, by decide⟩

set_option maxRecDepth 4000 in
theorem exitCode_callsOptions :
    (analyse callsWorkspace callsOptions).result.toOption.map exitCode = some 1 := by cbv

theorem violates_faultyOptions : Violates callsWorkspace faultyOptions .dumpsFound
    (.notFound .dump ⟨["gone"]⟩) :=
  .noDump ⟨[], "gone", [], rfl, by simp, .nothing (by decide) (by decide)⟩

theorem isFirstViolation_faultyOptions : IsFirstViolation callsWorkspace faultyOptions
    .specifications (.target (.spec "guards" .malformed)) := by
  constructor
  case violates =>
    refine .malformed ⟨[some "guards:use"], some "guards", [], rfl, ?_, .text (by cbv)⟩
    intro spec hSpec f hMalformed
    obtain rfl := List.mem_singleton.mp hSpec
    cases hMalformed with
    | text h =>
        have hParse : Target.parse "guards:use" = .ok ⟨"guards", "use", 0⟩ := by cbv
        rw [hParse] at h
        cases h
  case earlier =>
    intro q hq f hViolates
    obtain rfl : q = .jobs := by simpa [Requirement.earlier, Requirement.all] using hq
    cases hViolates with
    | noNumber h => cases h
    | tooFew hJobs h =>
        cases hJobs
        exact absurd h (by decide)

end NilGuard.Cli
