/-
  KvEngine.Status
  ───────────────
  The error codes and the `Status` value every operation returns, with the
  constructors the engine uses (`Status::OK`, `Status::NotFound`, …).
-/
import Mathlib.Tactic.Common

namespace KvEngine

inductive ErrorCode where
  | ok
  | notFound
  | corruption
  | notSupported
  | invalidArgument
  | ioError
  | alreadyExists
  | aborted
  | busy
  | expired
  | full
  | outOfMemory
  | internalError
  deriving DecidableEq, Repr

/-- An error code and its message. -/
structure Status where
  code : ErrorCode := .ok
  msg : String := ""
  deriving DecidableEq, Repr

namespace Status

def okStatus : Status := {}
def notFound (msg : String) : Status := ⟨.notFound, msg⟩
def corruption (msg : String) : Status := ⟨.corruption, msg⟩
def notSupported (msg : String) : Status := ⟨.notSupported, msg⟩
def invalidArgument (msg : String) : Status := ⟨.invalidArgument, msg⟩
def ioError (msg : String) : Status := ⟨.ioError, msg⟩
def internalError (msg : String) : Status := ⟨.internalError, msg⟩

/-- `Status::ok()`. -/
def ok (s : Status) : Bool := s.code == .ok

@[simp] theorem ok_okStatus : okStatus.ok = true := rfl
@[simp] theorem ok_notFound (msg : String) : (notFound msg).ok = false := rfl
@[simp] theorem ok_corruption (msg : String) : (corruption msg).ok = false := rfl
@[simp] theorem ok_invalidArgument (msg : String) : (invalidArgument msg).ok = false := rfl
@[simp] theorem ok_ioError (msg : String) : (ioError msg).ok = false := rfl
@[simp] theorem ok_internalError (msg : String) : (internalError msg).ok = false := rfl

end Status

end KvEngine
