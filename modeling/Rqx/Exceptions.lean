import Rqx.Error

/-! The exception classes of `rqx` with their bases, and the class that each error is raised
as. -/
namespace Rqx

/-- The classes that `rqx` defines and those of Python that it builds on or raises. -/
inductive ExceptionClass
  | RqxError | HTTPError | RequestError | HTTPStatusError | MaxRetriesExceeded
  | TransportError | DecodingError | TooManyRedirects
  | TimeoutException | NetworkError | ProtocolError | ProxyError | UnsupportedProtocol
  | RemoteProtocolError | ConnectTimeout | ReadTimeout | WriteTimeout | PoolTimeout
  | ConnectError | ReadError | WriteError
  | InvalidURL | JSONDecodeError | StreamError | StreamConsumed | StreamClosed | ResponseNotRead
  | PyBaseException | PyException | PyValueError | PyRuntimeError | PyTypeError | PyLookupError | PyKeyError
  | PyStopAsyncIteration
  /-- `json.JSONDecodeError`. -/
  | PyJSONDecodeError
  /-- `pyo3_runtime.PanicException`. -/
  | PanicException
  deriving DecidableEq, Repr

namespace ExceptionClass

def bases : ExceptionClass → List ExceptionClass
  | PyBaseException => []
  | PyException | PanicException => [PyBaseException]
  | RqxError => [PyException]
  | HTTPError => [RqxError]
  | RequestError | HTTPStatusError | MaxRetriesExceeded => [HTTPError]
  | TransportError | DecodingError | TooManyRedirects => [RequestError]
  | TimeoutException | NetworkError | ProtocolError | ProxyError | UnsupportedProtocol =>
    [TransportError]
  | RemoteProtocolError => [ProtocolError]
  | ConnectTimeout | ReadTimeout | WriteTimeout | PoolTimeout => [TimeoutException]
  | ConnectError | ReadError | WriteError => [NetworkError]
  -- With a base of Python's as well, built when the module loads.
  | InvalidURL => [RqxError,PyValueError]
  | JSONDecodeError => [RqxError,PyJSONDecodeError]
  | StreamError => [RqxError,PyRuntimeError]
  | StreamConsumed | StreamClosed | ResponseNotRead => [StreamError]
  | PyValueError | PyRuntimeError | PyTypeError | PyLookupError | PyStopAsyncIteration =>
    [PyException]
  | PyKeyError => [PyLookupError]
  | PyJSONDecodeError => [PyValueError]

/-- The class, its bases, their bases and so on, `n` steps up. -/
def ancestors : ℕ → ExceptionClass → List ExceptionClass
  | 0,c => [c]
  | n+1,c => c::c.bases.flatMap (ancestors n)

theorem ancestors_seven (n : ℕ) (c : ExceptionClass) : c.ancestors (n+7) = c.ancestors 7 := by
  induction n generalizing c with
  | zero => rfl
  | succ n ih =>
    rw [show n+1+7 = n+7+1 by omega,ancestors,funext ih]
    cases c <;> decide

theorem self_ancestors (n : ℕ) (c : ExceptionClass) : c ∈ c.ancestors n := by
  cases n <;> exact List.mem_cons_self

theorem ancestors_mono {n : ℕ} {a c : ExceptionClass} (h : c ∈ a.ancestors n) (m : ℕ) :
    c ∈ a.ancestors (n+m) := by
  induction n generalizing a with
  | zero =>
    obtain rfl : c = a := by simpa [ancestors] using h
    exact self_ancestors _ c
  | succ n ih =>
    rw [Nat.succ_add]
    rcases List.mem_cons.mp h with rfl | hbase
    · exact self_ancestors _ c
    · obtain ⟨base,hmem,hup⟩ := List.mem_flatMap.mp hbase
      exact List.mem_cons_of_mem _ (List.mem_flatMap.mpr ⟨base,hmem,ih hup⟩)

theorem ancestors_trans {n m : ℕ} {a b c : ExceptionClass} (hab : b ∈ a.ancestors n)
    (hbc : c ∈ b.ancestors m) : c ∈ a.ancestors (n+m) := by
  induction n generalizing a with
  | zero =>
    obtain rfl : b = a := by simpa [ancestors] using hab
    rwa [Nat.zero_add]
  | succ n ih =>
    rcases List.mem_cons.mp hab with rfl | hbase
    · rw [Nat.add_comm]
      exact ancestors_mono hbc _
    · obtain ⟨base,hmem,hup⟩ := List.mem_flatMap.mp hbase
      rw [Nat.succ_add]
      exact List.mem_cons_of_mem _ (List.mem_flatMap.mpr ⟨base,hmem,ih hup⟩)

/-- `except base` catches an exception of class `c`. -/
def isSubclass (c base : ExceptionClass) : Bool := (c.ancestors 7).contains base

theorem isSubclass_trans {a b c : ExceptionClass} (hab : a.isSubclass b) (hbc : b.isSubclass c) :
    a.isSubclass c := by
  simp only [isSubclass,List.contains_iff_mem] at hab hbc ⊢
  rw [← ancestors_seven 7]
  exact ancestors_trans hab hbc

end ExceptionClass

open ExceptionClass

/-- `PyRqxError::core`: the class a core error is raised as. -/
def RqxCoreError.raisedAs : RqxCoreError → ExceptionClass
  | ConnectTimeout _ => .ConnectTimeout
  | ReadTimeout _ => .ReadTimeout
  | ConnectError _ => .ConnectError
  | ReadError _ => .ReadError
  | RemoteProtocolError _ => .RemoteProtocolError
  | ProxyError _ => .ProxyError
  | UnsupportedProtocol _ => .UnsupportedProtocol
  | DecodingError _ => .DecodingError
  | TooManyRedirects _ => .TooManyRedirects
  | RequestError _ => .RequestError
  | HTTPStatusError _ => .HTTPStatusError
  | MaxRetriesExceeded _ => .MaxRetriesExceeded
  | InvalidURL _ => .InvalidURL
  | JSONDecode _ => .JSONDecodeError
  | StreamClosed _ => .StreamClosed
  | StreamError _ => .StreamError
  | TLSConfigError _ => .RqxError
  | InvalidArgument _ => .PyValueError
  | UnknownKeyword _ => .PyTypeError
  | MissingKey _ => .PyKeyError

theorem RqxCoreError.request_http {e : RqxCoreError} (h : e.raisedAs.isSubclass .RequestError) :
    e.raisedAs.isSubclass .HTTPError = true :=
  isSubclass_trans h rfl

end Rqx
