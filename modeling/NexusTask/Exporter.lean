import NexusTask.Config
import NexusTask.Lib.Exposition
import NexusTask.Lib.FlatObject
import NexusTask.Lib.Table
import NexusTask.Monitor

/-!
# `MetricsExporter`

A snapshot as JSON, as CSV and in the format Prometheus scrapes, written piece by piece as the
source writes it. A reader of each format gets the counters back. In the third one the prefix of the
names is the caller's, and it decides whether the text can be read.
-/

set_option autoImplicit false

namespace NexusTask
namespace MetricsExporter

/-- What `operator<<` writes for a `uint64_t`. -/
def decimal (n : Nat) : Text := Nat.toDigits 10 n

/-! ## The three formats -/

/-- One of the lines of `to_json`, with what ends it. -/
def jsonLine (name : String) (value : Nat) (rest : String) : Text :=
  "  \"".toList ++ name.toList ++ "\": ".toList ++ decimal value ++ rest.toList

def toJson (metrics : Metrics) : Text :=
  "\x7b\n".toList ++
  jsonLine "tasks_submitted" metrics.tasksSubmitted ",\n" ++
  jsonLine "tasks_completed" metrics.tasksCompleted ",\n" ++
  jsonLine "tasks_failed" metrics.tasksFailed ",\n" ++
  jsonLine "tasks_retried" metrics.tasksRetried ",\n" ++
  jsonLine "tasks_cancelled" metrics.tasksCancelled ",\n" ++
  jsonLine "total_execution_time_us" metrics.totalExecutionTime ",\n" ++
  jsonLine "max_execution_time_us" metrics.maxExecutionTime ",\n" ++
  jsonLine "min_execution_time_us" metrics.minExecutionTime ",\n" ++
  jsonLine "total_queue_wait_time_us" metrics.queueWaitTime ",\n" ++
  jsonLine "inflight_tasks" metrics.inflightTasks ",\n" ++
  jsonLine "peak_inflight" metrics.peakInflight "\n" ++
  "\x7d".toList

/-- What `to_prometheus` writes for one counter: its help text, its type and its value. -/
def family (namePrefix : Text) (name help type : String) (value : Nat) : Text :=
  "# HELP ".toList ++ namePrefix ++ ("_" ++ name ++ " " ++ help ++ "\n").toList ++
  "# TYPE ".toList ++ namePrefix ++ ("_" ++ name ++ " " ++ type ++ "\n").toList ++
  namePrefix ++ ("_" ++ name ++ " ").toList ++ decimal value ++ "\n".toList

def toPrometheus (metrics : Metrics) (namePrefix : Text := "nexustask".toList) : Text :=
  family namePrefix "tasks_submitted" "Total number of tasks submitted" "counter"
    metrics.tasksSubmitted ++ "\n".toList ++
  family namePrefix "tasks_completed" "Total number of tasks completed" "counter"
    metrics.tasksCompleted ++ "\n".toList ++
  family namePrefix "tasks_failed" "Total number of tasks failed" "counter"
    metrics.tasksFailed ++ "\n".toList ++
  family namePrefix "inflight_tasks" "Current number of inflight tasks" "gauge"
    metrics.inflightTasks ++ "\n".toList ++
  family namePrefix "peak_inflight" "Peak number of inflight tasks" "gauge"
    metrics.peakInflight

/-- One of the lines of `to_csv`. -/
def csvLine (name : String) (value : Nat) : Text :=
  name.toList ++ ",".toList ++ decimal value ++ "\n".toList

def toCsv (metrics : Metrics) : Text :=
  "metric,value\n".toList ++
  csvLine "tasks_submitted" metrics.tasksSubmitted ++
  csvLine "tasks_completed" metrics.tasksCompleted ++
  csvLine "tasks_failed" metrics.tasksFailed ++
  csvLine "tasks_retried" metrics.tasksRetried ++
  csvLine "tasks_cancelled" metrics.tasksCancelled ++
  csvLine "total_execution_time_us" metrics.totalExecutionTime ++
  csvLine "max_execution_time_us" metrics.maxExecutionTime ++
  csvLine "min_execution_time_us" metrics.minExecutionTime ++
  csvLine "total_queue_wait_time_us" metrics.queueWaitTime ++
  csvLine "inflight_tasks" metrics.inflightTasks ++
  csvLine "peak_inflight" metrics.peakInflight

/-! ## What a reader gets -/

/-- The counters by name. -/
def fields (metrics : Metrics) : List (Text × Nat) :=
  [("tasks_submitted".toList, metrics.tasksSubmitted),
   ("tasks_completed".toList, metrics.tasksCompleted),
   ("tasks_failed".toList, metrics.tasksFailed),
   ("tasks_retried".toList, metrics.tasksRetried),
   ("tasks_cancelled".toList, metrics.tasksCancelled),
   ("total_execution_time_us".toList, metrics.totalExecutionTime),
   ("max_execution_time_us".toList, metrics.maxExecutionTime),
   ("min_execution_time_us".toList, metrics.minExecutionTime),
   ("total_queue_wait_time_us".toList, metrics.queueWaitTime),
   ("inflight_tasks".toList, metrics.inflightTasks),
   ("peak_inflight".toList, metrics.peakInflight)]

theorem fields_names (metrics : Metrics) :
    (fields metrics).map Prod.fst = (fields {}).map Prod.fst := rfl

/-- The names, one by one. -/
theorem fields_all {metrics : Metrics} {P : Text → Prop}
    (h : ∀ name ∈ (fields {}).map Prod.fst, P name) : ∀ row ∈ fields metrics, P row.1 := by
  intro row hrow
  apply h
  rw [← fields_names metrics]
  exact List.mem_map_of_mem hrow

theorem jsonLine_eq (name : String) (value : Nat) (rest : String) : jsonLine name value rest
    = FlatObject.writeMember name.toList value ++ rest.toList := by
  have hopen : "  \"".toList = [' ', ' ', '"'] := rfl
  have hclose : "\": ".toList = ['"', ':', ' '] := rfl
  simp only [jsonLine, FlatObject.writeMember, decimal, hopen, hclose, List.append_assoc,
    List.cons_append, List.nil_append]

theorem toJson_eq (metrics : Metrics) : toJson metrics = FlatObject.write (fields metrics) := by
  have hopen : "\x7b\n".toList = ['\x7b', '\n'] := rfl
  have hcomma : ",\n".toList = [',', '\n'] := rfl
  have hnewline : "\n".toList = ['\n'] := rfl
  have hclose : "\x7d".toList = ['\x7d'] := rfl
  unfold toJson fields FlatObject.write
  simp only [jsonLine_eq, hopen, hcomma, hnewline, hclose]
  simp only [FlatObject.writeMembers, List.append_assoc, List.cons_append, List.nil_append]

theorem csvLine_eq (name : String) (value : Nat) :
    csvLine name value = Table.writeRow (name.toList, value) ++ ['\n'] := by
  have hcomma : ",".toList = [','] := rfl
  have hnewline : "\n".toList = ['\n'] := rfl
  simp only [csvLine, Table.writeRow, decimal, hcomma, hnewline, List.append_assoc,
    List.cons_append, List.nil_append]

theorem toCsv_eq (metrics : Metrics) :
    toCsv metrics = Table.write "metric,value".toList (fields metrics) := by
  have hheader : "metric,value\n".toList = "metric,value".toList ++ ['\n'] := rfl
  unfold toCsv fields Table.write
  simp only [csvLine_eq, hheader]
  simp only [List.map_cons, List.map_nil, List.flatMap_cons, List.flatMap_nil, List.append_assoc,
    List.append_nil]

/-- **Nothing is lost.** Both texts are read back as the counters by their names. -/
theorem exports_read_back (metrics : Metrics) :
    FlatObject.read (toJson metrics) = some (fields metrics) ∧
      Table.read (toCsv metrics) = some ("metric,value".toList, fields metrics) := by
  constructor
  · rw [toJson_eq]
    apply FlatObject.read_write
    apply fields_all
    intro name hname
    have hplain : ∀ name ∈ (fields {}).map Prod.fst, '"' ∉ name ∧ '\\' ∉ name := by decide +kernel
    exact ⟨(hplain name hname).1, (hplain name hname).2⟩
  · rw [toCsv_eq]
    refine Table.read_write (by decide) (fields_all (P := fun name => ',' ∉ name ∧ '\n' ∉ name) ?_)
    decide +kernel

/-! ## The prefix -/

/-- The family of one counter. -/
def familyOf (namePrefix : Text) (name help type : String) (value : Nat) : Exposition.Family where
  name := namePrefix ++ ("_" ++ name).toList
  type := type.toList
  value := value
  help := help.toList

theorem family_eq (namePrefix : Text) (name help type : String) (value : Nat) :
    family namePrefix name help type value = (familyOf namePrefix name help type value).write := by
  have hhelp : "# HELP ".toList = '#' :: ' ' :: "HELP ".toList := rfl
  have htype : "# TYPE ".toList = '#' :: ' ' :: "TYPE ".toList := rfl
  have hbar : "_".toList = ['_'] := rfl
  have hspace : " ".toList = [' '] := rfl
  have hnewline : "\n".toList = ['\n'] := rfl
  unfold family Exposition.Family.write Exposition.Family.helpLine Exposition.Family.typeLine
    Exposition.Family.sampleLine familyOf decimal
  simp only [String.toList_append, hhelp, htype, hbar, hspace, hnewline, List.append_assoc,
    List.cons_append, List.nil_append]

def families (metrics : Metrics) (namePrefix : Text) : List Exposition.Family :=
  [familyOf namePrefix "tasks_submitted" "Total number of tasks submitted" "counter"
     metrics.tasksSubmitted,
   familyOf namePrefix "tasks_completed" "Total number of tasks completed" "counter"
     metrics.tasksCompleted,
   familyOf namePrefix "tasks_failed" "Total number of tasks failed" "counter" metrics.tasksFailed,
   familyOf namePrefix "inflight_tasks" "Current number of inflight tasks" "gauge"
     metrics.inflightTasks,
   familyOf namePrefix "peak_inflight" "Peak number of inflight tasks" "gauge"
     metrics.peakInflight]

/-- What is meant to be scraped. -/
def samples (metrics : Metrics) (namePrefix : Text) : List Exposition.Sample :=
  (families metrics namePrefix).map fun f => f.toSample

theorem toPrometheus_eq (metrics : Metrics) (namePrefix : Text) :
    toPrometheus metrics namePrefix = Exposition.write (families metrics namePrefix) := by
  have hnewline : "\n".toList = ['\n'] := rfl
  unfold toPrometheus families
  simp only [family_eq, hnewline]
  simp only [Exposition.write, List.append_assoc, List.cons_append, List.nil_append]

theorem familyOf_plain {namePrefix : Text} {name help type : String} {value : Nat}
    (hclean : namePrefix = [] ∨ Exposition.validName namePrefix = true)
    (hname : Exposition.validName ("_" ++ name).toList = true)
    (htype : ' ' ∉ type.toList ∧ '\n' ∉ type.toList) (hhelp : '\n' ∉ help.toList) :
    (familyOf namePrefix name help type value).Plain :=
  ⟨(Exposition.validName_append hname).mpr hclean, htype, hhelp⟩

theorem families_plain {namePrefix : Text}
    (hclean : namePrefix = [] ∨ Exposition.validName namePrefix = true) (metrics : Metrics) :
    ∀ f ∈ families metrics namePrefix, f.Plain := by
  intro f hf
  simp only [families, List.mem_cons, List.not_mem_nil, or_false] at hf
  rcases hf with rfl | rfl | rfl | rfl | rfl <;>
    exact familyOf_plain hclean (by decide) (by decide) (by decide)

theorem families_nodup (metrics : Metrics) (namePrefix : Text) :
    ((families metrics namePrefix).map fun f => f.name).Nodup := by
  have hnames : ((families metrics namePrefix).map fun f => f.name)
      = ["_tasks_submitted".toList, "_tasks_completed".toList, "_tasks_failed".toList,
          "_inflight_tasks".toList, "_peak_inflight".toList].map (namePrefix ++ ·) := rfl
  rw [hnames]
  exact List.Nodup.map (List.append_right_injective namePrefix) (by decide +kernel)

/-- **What Prometheus scrapes.** The five samples are read back, with their types, exactly where the
prefix is empty or a name itself: a letter, `_` or `:`, then letters, digits, `_` and `:`. -/
theorem prometheus_read_iff (metrics : Metrics) (namePrefix : Text) :
    Exposition.read (toPrometheus metrics namePrefix) = some (samples metrics namePrefix) ↔
      namePrefix = [] ∨ Exposition.validName namePrefix = true := by
  constructor
  · intro h
    have hname : Exposition.validName ("_" ++ "tasks_submitted").toList = true := by decide
    rw [← Exposition.validName_append hname]
    exact Exposition.valid_of_read h _ List.mem_cons_self
  · intro hclean
    rw [toPrometheus_eq]
    exact Exposition.read_write (List.cons_ne_nil _ _) (families_plain hclean metrics)
      (families_nodup metrics namePrefix)

/-- The default can be scraped. -/
example : Exposition.validName "nexustask".toList = true := by decide

end MetricsExporter
end NexusTask
