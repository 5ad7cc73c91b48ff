import Mathlib.Data.List.Basic

/-! # Error codes (`kernel/lib/result.h`)

`Error::None` is success everywhere a function returns a bare `Error`; a
`Result<T>` holds either a value or one of the other codes. -/

namespace Zonix

inductive Error where
  | none
  | io
  | noMem
  | invalid
  | notFound
  | badFs
  | exists
  | notEmpty
  | timeout
  | busy
  | noDevice
  | notSupported
  | full
  | fail
  deriving Repr, DecidableEq

end Zonix
