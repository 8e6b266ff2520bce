import Mathlib.Data.List.DropRight
import Mathlib.Data.List.Flatten
import SignalFlow.Engine.Session

/-!
The books of a session. Whatever outcomes it is told of, and however often its plan is swapped in
between, its counters count all that there was, and its lists end with what came last and hold as
much of it as they may.
-/

namespace SignalFlow

namespace Session

-- What is written into the books.
inductive Entry where
  | outcome (outcome : Outcome) (time : Instant)
  | plan (graph : Graph) (plan : Plan)

namespace Entry

def time? : Entry → Option Instant
  | .outcome _ time => some time
  | .plan _ _       => none

def signals : Entry → List Signal
  | .outcome o _ => o.signals
  | .plan _ _    => []

def errors : Entry → List SessionError
  | .outcome o time => o.failures.map fun f => ⟨some f.1, f.2.message, time⟩
  | .plan _ _       => []

end Entry

def enter (s : Session) : Entry → Session
  | .outcome o time  => s.recordOutcome o time
  | .plan graph plan => s.replacePlan graph plan

-- The books say what the entries say, all in all and in their order.
structure Balances (s : Session) (config : Config) (entries : List Entry) : Prop where
  executions     : s.executions = (entries.filterMap Entry.time?).length
  lastExecution  : s.lastExecution = (entries.filterMap Entry.time?).getLast?
  signalsEmitted : s.signalsEmitted = (entries.flatMap Entry.signals).length
  errorCount     : s.errorCount = (entries.flatMap Entry.errors).length
  signalHistory  : s.signalHistory =
    (entries.flatMap Entry.signals).rtake config.maxSignalHistory
  recentErrors   : s.recentErrors = (entries.flatMap Entry.errors).rtake config.maxRecentErrors

section Bounded

variable {α : Type} {limit : Nat}

theorem pushBounded_rtake (l : List α) (a : α) :
    pushBounded limit (l.rtake limit) a = (l ++ [a]).rtake limit := by
  cases limit
  case zero   => simp [pushBounded]
  case succ n =>
    -- One more than the limit is one too many.
    have hl : (l.rtake (n + 1)).length + 1 - (n + 1) = (l.rtake (n + 1)).length - n := by omega
    have hd : l.length - (n + 1) + (l.length - (l.length - (n + 1)) - n) = l.length - n := by omega
    rw [pushBounded, if_neg n.succ_ne_zero, hl, List.rtake_concat_succ,
      List.drop_append_of_le_length (Nat.sub_le ..), List.rtake, List.length_drop, List.drop_drop,
      hd, List.rtake]

-- A list that was pushed to is the end of all that was ever pushed.
theorem foldl_pushBounded_rtake (l l' : List α) :
    l'.foldl (pushBounded limit) (l.rtake limit) = (l ++ l').rtake limit := by
  induction l' generalizing l
  case nil          => simp
  case cons a l' hi => rw [List.foldl_cons, pushBounded_rtake, hi, List.append_assoc]; rfl

end Bounded

theorem foldl_recordSignal (s : Session) (signals : List Signal) :
    signals.foldl recordSignal s = { s with
      signalsEmitted := s.signalsEmitted + signals.length
      signalHistory  := signals.foldl (pushBounded s.maxSignalHistory) s.signalHistory } := by
  induction signals generalizing s
  case nil               => rfl
  case cons x signals hi =>
    rw [List.foldl_cons, hi, List.length_cons, Nat.add_comm _ 1, ←Nat.add_assoc]
    rfl

theorem foldl_recordError (s : Session) (errors : List SessionError) :
    errors.foldl (fun s e => s.recordError e.node e.message e.time) s = { s with
      errorCount   := s.errorCount + errors.length
      recentErrors := errors.foldl (pushBounded s.maxRecentErrors) s.recentErrors } := by
  induction errors generalizing s
  case nil              => rfl
  case cons e errors hi =>
    rw [List.foldl_cons, hi, List.length_cons, Nat.add_comm _ 1, ←Nat.add_assoc]
    rfl

-- All that an outcome is written down as.
theorem recordOutcome_eq (s : Session) (o : Outcome) (time : Instant) :
    let errors := (Entry.outcome o time).errors
    s.recordOutcome o time = { s with
      executions     := s.executions + 1
      lastExecution  := some time
      signalsEmitted := s.signalsEmitted + o.signals.length
      errorCount     := s.errorCount + errors.length
      signalHistory  := o.signals.foldl (pushBounded s.maxSignalHistory) s.signalHistory
      recentErrors   := errors.foldl (pushBounded s.maxRecentErrors) s.recentErrors } := by
  have herrors (s : Session) :
      o.failures.foldl (fun s f => s.recordError (some f.1) f.2.message time) s =
        (Entry.outcome o time).errors.foldl
          (fun s e => s.recordError e.node e.message e.time) s := by
    rw [Entry.errors, List.foldl_map]
  rw [recordOutcome, herrors, foldl_recordError, foldl_recordSignal]

variable {s : Session} {config : Config} {entries : List Entry} {entry : Entry}

-- The limits of a session are those of its settings.
def Limited (s : Session) (config : Config) : Prop :=
  s.maxSignalHistory = config.maxSignalHistory ∧ s.maxRecentErrors = config.maxRecentErrors

theorem Limited.enter (h : s.Limited config) : (s.enter entry).Limited config := by
  cases entry
  case plan         => exact h
  case outcome o time =>
    rw [Session.enter, recordOutcome_eq]
    exact h

theorem Balances.enter (h : s.Balances config entries) (hl : s.Limited config) :
    (s.enter entry).Balances config (entries ++ [entry]) := by
  cases entry
  case plan graph plan =>
    constructor
    all_goals simp only [List.filterMap_append, List.flatMap_append, List.flatMap_singleton]
    case executions     => exact h.executions.trans (by simp [Entry.time?])
    case lastExecution  => exact h.lastExecution.trans (by simp [Entry.time?])
    case signalsEmitted => exact h.signalsEmitted.trans (by simp [Entry.signals])
    case errorCount     => exact h.errorCount.trans (by simp [Entry.errors])
    case signalHistory  => exact h.signalHistory.trans (by simp [Entry.signals])
    case recentErrors   => exact h.recentErrors.trans (by simp [Entry.errors])
  case outcome o time =>
    rw [Session.enter, recordOutcome_eq]
    constructor
    all_goals simp only [List.filterMap_append, List.flatMap_append, List.flatMap_singleton]
    case executions     => simp [h.executions, Entry.time?]
    case lastExecution  => simp [Entry.time?]
    case signalsEmitted => simp [h.signalsEmitted, Entry.signals]
    case errorCount     => simp [h.errorCount]
    case signalHistory  => rw [h.signalHistory, hl.left, foldl_pushBounded_rtake]; rfl
    case recentErrors   => rw [h.recentErrors, hl.right, foldl_pushBounded_rtake]

-- From the day on which a session is new its books are kept without a gap.
theorem balances_foldl_enter (id strategy : String) (graph : Graph) (plan : Plan) (config : Config)
    (entries : List Entry) :
    (entries.foldl enter (new id strategy graph plan config)).Balances config entries := by
  suffices h : ∀ entries : List Entry,
      (entries.foldl enter (new id strategy graph plan config)).Balances config entries ∧
        (entries.foldl enter (new id strategy graph plan config)).Limited config from
    (h entries).left
  intro entries
  induction entries using List.reverseRecOn
  case nil =>
    refine ⟨?_, rfl, rfl⟩
    constructor <;> simp [new]
  case append_singleton entries entry hi =>
    rw [List.foldl_append]
    exact ⟨hi.left.enter hi.right, hi.right.enter⟩

end Session

end SignalFlow
