/-!
Log records. Compiling and converting say what they do in records, in the order in which it happens.
-/
namespace TreeCodec

inductive LogLevel where
  | trace | debug | warn | error
  deriving DecidableEq, Repr

def LogLevel.text : LogLevel → String
  | trace => "TRACE"
  | debug => "DEBUG"
  | warn => "WARN"
  | error => "ERROR"

structure LogRecord where
  level : LogLevel
  text : String
  deriving DecidableEq, Repr

def LogRecord.line (r : LogRecord) : String := r.level.text ++ " " ++ r.text

end TreeCodec
