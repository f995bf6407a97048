import TopicPlugin.Descriptor.Decode
import TopicPlugin.Descriptor.Response
import TopicPlugin.Generation
import TopicPlugin.Stream

/-!
# The plugin

The compiler hands the plugin one request and takes one response back. A request that cannot be read
or decoded is answered by a response that says so; only a response that cannot be delivered is a
failure of the plugin itself.
-/

namespace TopicPlugin

inductive PluginError where
  | read (text : String)
  | decode (error : Wire.DecodeError)
  | write (text : String)
  deriving DecidableEq, Repr

def PluginError.message : PluginError → String
  | .read text => "failed to read request: " ++ text
  | .decode error => "failed to decode request: " ++ error.message
  | .write text => "failed to write response: " ++ text

/-- How a delivered response ended. -/
inductive Outcome where
  /-- It carries artifacts only. -/
  | succeeded
  /-- It carries a failure for the compiler to report. -/
  | reported
  deriving DecidableEq, Repr

namespace Plugin

/-- The request in what was read, or in what reading failed with. -/
def requestOf (input : Except String (List UInt8)) : Except PluginError Request :=
  match input with
  | .error text => .error (.read text)
  | .ok bytes => (Request.decode bytes).mapError .decode

/-- The response to what was read. -/
def process (input : Except String (List UInt8)) : Response :=
  match requestOf input with
  | .error e => .failed ("Failed to read input: " ++ e.message)
  | .ok request => respond request

/-- Writes all of a response and flushes the sink. -/
def deliver (response : Response) (sink : Sink) : Sink × Except PluginError Unit :=
  match sink.writeAll response.encode with
  | (sink, some text) => (sink, .error (.write text))
  | (sink, none) =>
    match sink.flush with
    | some text => (sink, .error (.write text))
    | none => (sink, .ok ())

def outcomeOf (response : Response) : Outcome :=
  if response.succeeded then .succeeded else .reported

/-- Answers the one request of a source on a sink. -/
def run (source : Source) (sink : Sink) : Sink × Except PluginError Outcome :=
  let response := process source.readAll
  let (sink, delivered) := deliver response sink
  (sink, delivered.map fun () => outcomeOf response)

/-- The exit code of the command line. -/
def exitCode : Except PluginError Outcome → UInt32
  | .ok .succeeded => 0
  | .ok .reported => 1
  | .error _ => 2

end Plugin

end TopicPlugin
