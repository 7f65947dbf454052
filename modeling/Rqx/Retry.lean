import Rqx.Error
import Rqx.Number

/-! The caps of `Retry` and how they are charged. -/
namespace Rqx

def DEFAULT_TOTAL_RETRIES : Int32 := 3
def DEFAULT_BACKOFF_FACTOR : Number := .fin 0
def DEFAULT_BACKOFF_MAX : Number := .fin 120
def DEFAULT_BACKOFF_JITTER : Number := .fin 0
def DEFAULT_STATUS_FORCELIST : List ℕ := []
def DEFAULT_ALLOWED_METHODS : List String := ["DELETE","GET","HEAD","OPTIONS","PUT"]
def DEFAULT_RESPECT_RETRY_AFTER_HEADER : Bool := true
def DEFAULT_RAISE_ON_STATUS : Bool := true

inductive FailureKind
  | Connect | Read | Status
  deriving DecidableEq

def FailureKind.fromRequestError (e : ReqwestError) : FailureKind :=
  if e.isConnect then .Connect else .Read

structure RetryCounts where
  total : Int32
  connect : Int32
  read : Int32
  status : Int32
  deriving DecidableEq

namespace RetryCounts

/-- `RetryCounts::default`. -/
def zero : RetryCounts := ⟨0,0,0,0⟩

def record (used : RetryCounts) (kind : FailureKind) : RetryCounts :=
  let used := { used with total := used.total+1 }
  match kind with
  | .Connect => { used with connect := used.connect+1 }
  | .Read => { used with read := used.read+1 }
  | .Status => { used with status := used.status+1 }

/-- What is charged to one kind of failure. -/
def of (used : RetryCounts) : FailureKind → Int32
  | .Connect => used.connect
  | .Read => used.read
  | .Status => used.status

@[simp] theorem record_total (used : RetryCounts) (kind : FailureKind) :
    (used.record kind).total = used.total+1 := by
  cases kind <;> rfl

theorem record_of (used : RetryCounts) (kind other : FailureKind) :
    (used.record kind).of other = if other = kind then used.of kind+1 else used.of other := by
  cases kind <;> cases other <;> rfl

end RetryCounts

structure Retry where
  total : Int32
  connect : Int32
  read : Int32
  status : Int32
  backoffFactor : Number
  backoffMax : Number
  backoffJitter : Number
  statusForcelist : List ℕ
  allowedMethods : List String
  respectRetryAfterHeader : Bool
  raiseOnStatus : Bool
  totalTimeout : Option Number
  deriving DecidableEq

namespace Retry

/-- `Retry::new`: a cap that is not given is the total. -/
def new (total connect read status : Option Int32)
    (backoffFactor backoffMax backoffJitter : Option Number) (statusForcelist : Option (List ℕ))
    (allowedMethods : Option (List String)) (respectRetryAfterHeader raiseOnStatus : Option Bool)
    (totalTimeout : Option Number) : Retry :=
  let defaultTotal := total.getD DEFAULT_TOTAL_RETRIES
  { total := defaultTotal
    connect := connect.getD defaultTotal
    read := read.getD defaultTotal
    status := status.getD defaultTotal
    backoffFactor := backoffFactor.getD DEFAULT_BACKOFF_FACTOR
    backoffMax := backoffMax.getD DEFAULT_BACKOFF_MAX
    backoffJitter := backoffJitter.getD DEFAULT_BACKOFF_JITTER
    statusForcelist := statusForcelist.getD DEFAULT_STATUS_FORCELIST
    allowedMethods := allowedMethods.getD DEFAULT_ALLOWED_METHODS
    respectRetryAfterHeader := respectRetryAfterHeader.getD DEFAULT_RESPECT_RETRY_AFTER_HEADER
    raiseOnStatus := raiseOnStatus.getD DEFAULT_RAISE_ON_STATUS
    totalTimeout }

def cap (r : Retry) : FailureKind → Int32
  | .Connect => r.connect
  | .Read => r.read
  | .Status => r.status

def allowsAnother (r : Retry) (kind : FailureKind) (used : RetryCounts) : Bool :=
  if r.total ≤ used.total then false
  else match kind with
    | .Connect => used.connect < r.connect
    | .Read => used.read < r.read
    | .Status => used.status < r.status

variable {r : Retry} {kind : FailureKind} {used : RetryCounts}

/-- There is a retry left in the total and in the cap on the kind. -/
theorem allowsAnother_iff :
    r.allowsAnother kind used ↔ used.total < r.total ∧ used.of kind < r.cap kind := by
  unfold allowsAnother
  by_cases h : r.total ≤ used.total
  · simp [h,Int32.not_lt.mpr h]
  · cases kind <;> simp [h,Int32.not_le.mp h,RetryCounts.of,cap]

theorem toInt_add_one {a b : Int32} (h : a < b) : (a+1).toInt = a.toInt+1 := by
  have ha := Int32.le_toInt a
  have hb := Int32.toInt_lt b
  have hlt := Int32.lt_iff_toInt_lt.mp h
  rw [Int32.toInt_add,Int32.toInt_one]
  exact Int.bmod_eq_of_le (by omega) (by omega)

/-- A retry that is allowed is charged to the total, which has room for it. -/
theorem record_allowed (h : r.allowsAnother kind used) :
    (used.record kind).total.toInt = used.total.toInt+1 ∧ used.total.toInt < r.total.toInt := by
  have hlt := (allowsAnother_iff.mp h).1
  rw [RetryCounts.record_total]
  exact ⟨toInt_add_one hlt,Int32.lt_iff_toInt_lt.mp hlt⟩

end Retry
end Rqx
