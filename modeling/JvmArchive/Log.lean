/-!
# Logs

What work on an archive reports while it goes on.
-/
namespace JvmArchive

inductive LogLevel
  | info
  | warn
  | error
  deriving Repr, DecidableEq, Inhabited

def LogLevel.name : LogLevel → String
  | info => "info"
  | warn => "warn"
  | error => "error"

structure LogRecord where
  level : LogLevel
  message : String
  deriving Repr, DecidableEq, Inhabited

end JvmArchive
