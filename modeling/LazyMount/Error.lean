/-! The error codes and summaries that the modelled calls return. -/

namespace LazyMount

inductive ErrorCode where
  | invalidRepositoryPath
  | authentication
  | dirtyWorkspaceConflict
  | unsupportedOperation
  | notFound
  | alreadyExists
  | remoteMissingObject
  | offlineMissingObject
  | localObjectCorruption
  | internal
deriving DecidableEq, Repr

structure Error where
  code : ErrorCode
  summary : String
deriving DecidableEq, Repr

end LazyMount

namespace Except

variable {ε α β : Type}

@[simp] theorem ok_bind (a : α) (f : α → Except ε β) : ((Except.ok a : Except ε α) >>= f) = f a := rfl

@[simp] theorem error_bind (e : ε) (f : α → Except ε β) :
    ((Except.error e : Except ε α) >>= f) = .error e := rfl

theorem bind_eq_ok {x : Except ε α} {f : α → Except ε β} {b : β} :
    (x >>= f) = .ok b ↔ ∃ a, x = .ok a ∧ f a = .ok b := by
  cases x <;> simp

end Except
