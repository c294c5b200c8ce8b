/-!
# Log records

What a rename tells its log.  Records are values, kept in the order in which
they arise.
-/

namespace PackageRename

inductive Severity where
  | error
  | warn
  | info
  | debug
deriving DecidableEq

structure LogRecord where
  severity : Severity
  message : String
deriving DecidableEq

end PackageRename
