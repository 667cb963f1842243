import BlockchainAuditor.Daemonize

/-! Which processes `daemon_stop` and `daemon_status` signal for a pid file of any contents. -/

namespace BlockchainAuditor

open CStrings

section

variable (kill : Int32 → Int32 → Int32) (overflow : Overflow) (pidfile : Option Bytes)

/-- Both commands do the same whatever the local held before, and signal no process but one whose
positive pid stands in the file. -/
def SignalsOnlyRead (file : Option Bytes) : Prop :=
  ∃ stop status, (∀ uninitialised,
      daemonStop kill overflow uninitialised pidfile file = some stop ∧
      daemonStatus kill overflow uninitialised file = some status) ∧
    ∀ call ∈ stop.killed ++ status.killed,
      0 < call.1.toInt ∧ ∃ contents ∈ file, scanInteger contents = some call.1.toInt

variable {kill overflow pidfile}

theorem daemonStop_killed {uninitialised : Int32} {contents : Bytes} {outcome : PidfileOutcome}
    (stopped : daemonStop kill overflow uninitialised pidfile (some contents) = some outcome) :
    ∃ pid, readPid overflow uninitialised contents = some pid ∧ outcome.killed = [(pid, sigterm)] := by
  simp only [daemonStop, Option.bind_eq_bind, Option.bind_eq_some_iff] at stopped
  obtain ⟨pid, read, returned⟩ := stopped
  refine ⟨pid, read, ?_⟩
  obtain rfl := Option.some.inj returned
  split <;> rfl

theorem daemon_reads {contents : Bytes} {pid : Int32}
    (read : ∀ uninitialised, readPid overflow uninitialised contents = some pid) :
    ∃ stop status, (∀ uninitialised,
        daemonStop kill overflow uninitialised pidfile (some contents) = some stop ∧
        daemonStatus kill overflow uninitialised (some contents) = some status) ∧
      stop.killed = [(pid, sigterm)] ∧ status.killed = [(pid, 0)] := by
  simp only [daemonStop, daemonStatus, read, Option.bind_eq_bind, Option.bind_some]
  refine ⟨_, _, fun _ => ⟨rfl, rfl⟩, ?_, ?_⟩
  · split <;> rfl
  · split <;> rfl

theorem readPid_inside {contents : Bytes} {pid : Int} (scanned : scanInteger contents = some pid)
    (positive : 0 < pid) (fits : pid ≤ Int32.maxValue.toInt) (uninitialised : Int32) :
    readPid overflow uninitialised contents = some (Int32.ofInt pid) := by
  have lowest : Int32.minValue.toInt = -2147483648 := by decide
  simp only [readPid, scanned]
  exact if_pos ⟨by omega, fits⟩

theorem signalsOnlyRead_iff (file : Option Bytes) :
    SignalsOnlyRead kill overflow pidfile file ↔ ∀ contents ∈ file,
      ∃ pid, scanInteger contents = some pid ∧ 0 < pid ∧ pid ≤ Int32.maxValue.toInt := by
  constructor
  · rintro ⟨stop, status, returns, onlyRead⟩ contents rfl
    obtain ⟨pid, _, killed⟩ := daemonStop_killed (returns 0).1
    obtain ⟨positive, read, same, scanned⟩ := onlyRead (pid, sigterm) (by simp [killed])
    obtain rfl := Option.some.inj same
    exact ⟨pid.toInt, scanned, positive, Int32.toInt_le pid⟩
  · intro numbered
    cases file with
    | none => exact ⟨_, _, fun _ => ⟨rfl, rfl⟩, by simp⟩
    | some contents =>
        obtain ⟨pid, scanned, positive, fits⟩ := numbered contents rfl
        have highest : Int32.maxValue.toInt = 2147483647 := by decide
        have value : (Int32.ofInt pid).toInt = pid := Int32.toInt_ofInt_of_le (by omega) (by omega)
        obtain ⟨stop, status, returns, stopKills, statusKills⟩ :=
          daemon_reads (readPid_inside scanned positive fits)
        refine ⟨stop, status, returns, fun call member => ?_⟩
        have same : call.1 = Int32.ofInt pid := by
          rw [stopKills, statusKills] at member
          simp only [List.cons_append, List.nil_append, List.mem_cons, List.not_mem_nil,
            or_false] at member
          rcases member with rfl | rfl <;> rfl
        rw [same, value]
        exact ⟨positive, contents, rfl, scanned⟩

end

theorem emptyPidfile_trusted : ¬∀ file,
    SignalsOnlyRead (fun _ _ => 0) (fun _ => none) none file := by
  intro trusted
  obtain ⟨stop, status, returns, onlyRead⟩ := trusted (some [])
  obtain ⟨pid, _, killed⟩ := daemonStop_killed (returns (-1)).1
  obtain ⟨_, contents, same, scanned⟩ := onlyRead (pid, sigterm) (by simp [killed])
  obtain rfl := Option.some.inj same
  simp [scanInteger, scanSigned] at scanned

end BlockchainAuditor
