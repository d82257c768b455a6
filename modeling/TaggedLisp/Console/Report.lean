import TaggedLisp.Console.Render
import TaggedLisp.Dump.Value
import TaggedLisp.Machine

/-!
# Reports

A report is what evaluating a source prints. Results go to the output channel and failures to the
error channel, one line for each form that was evaluated, in order. Everything is evaluated before
anything is rendered.
-/

set_option autoImplicit false

namespace TaggedLisp

inductive Channel where
  | output
  | error
deriving DecidableEq, Repr

structure Emission where
  channel : Channel
  text : String
deriving DecidableEq, Repr

namespace Emission

def print (text : String) : Emission := ⟨.output, text⟩

def line (text : String) : Emission := ⟨.output, text ++ "\n"⟩

def complaint (text : String) : Emission := ⟨.error, text ++ "\n"⟩

def failure (error : Error) : Emission := complaint ("error: " ++ error.message)

def textOn (channel : Channel) (emissions : List Emission) : String :=
  String.join ((emissions.filter (·.channel = channel)).map Emission.text)

end Emission

/-- What is printed about one outcome: a result, after it the dump of its value if that is wanted, or
a failure. -/
def outcomeEmissions (format : OutputFormat) (showDump : Bool) (heap : Heap) :
    Except Error Value → Checked (List Emission)
  | .error error => return [.failure error]
  | .ok value => do
    let result ← format.renderValue heap value
    if showDump then return [.line result, .print (← heap.describe value)]
    else return [.line result]

structure Report where
  emissions : List Emission
  succeeded : Bool
  machine : Machine

def isSuccess {α : Type} : Except Error α → Bool
  | .ok _ => true
  | .error _ => false

/-- Evaluates a source and reports the outcomes. A source that cannot be read makes one complaint. -/
def Report.ofSource (host : Host) (format : OutputFormat) (showDump : Bool) (source : String)
    (machine : Machine) : Checked Report := do
  let (outcomes, machine) ← machine.evalForms host source
  match outcomes with
  | .error error => return { emissions := [.failure error], succeeded := false, machine }
  | .ok outcomes =>
    let emissions ← outcomes.mapM (outcomeEmissions format showDump machine.heap)
    return { emissions := emissions.flatten, succeeded := outcomes.all isSuccess, machine }

end TaggedLisp
