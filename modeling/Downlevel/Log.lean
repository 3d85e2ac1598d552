/-!
# `Log`: what is noted along the way
-/

namespace Downlevel

inductive Level where
  | debug
  | warning
  deriving DecidableEq

def Level.text : Level → String
  | .debug => "DEBUG"
  | .warning => "WARNING"

/-- The parts of the library that note something. -/
inductive Channel where
  | session
  | config
  | files
  | frontEnd
  | lowering
  | output
  deriving DecidableEq

/-- The name under which a part writes its records. -/
def Channel.text : Channel → String
  | .session => "pipeline.orchestrator"
  | .config => "pipeline.config"
  | .files => "pipeline.io"
  | .frontEnd => "frontend.pipeline"
  | .lowering => "transformer.core"
  | .output => "emitter.writer"

/-- Something noted along the way. -/
structure LogRecord where
  level : Level
  channel : Channel
  message : String
  deriving DecidableEq

namespace LogRecord

def debug (channel : Channel) (message : String) : LogRecord := ⟨.debug, channel, message⟩

def warning (channel : Channel) (message : String) : LogRecord := ⟨.warning, channel, message⟩

/-- A record on one line. -/
def text (r : LogRecord) : String := s!"{r.level.text} {r.channel.text}: {r.message}"

end LogRecord
end Downlevel
