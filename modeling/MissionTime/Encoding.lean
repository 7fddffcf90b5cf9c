import MissionTime.Formula.Measure
import MissionTime.Script
import MissionTime.Unrolling

/-! A batch of formulas as one query: the table of their timed atoms, which they share, and one
assertion for each of them. -/
namespace MissionTime

structure Encoding where
  table : AtomTable := {}
  assertions : Array Term := #[]

namespace Encoding

def defaultHorizon : Nat := 4096

def checkHorizon (limit : Nat) (f : Formula) : Except EncodingError Unit :=
  if limit < f.horizon then .error (.horizonExceeded f.horizon limit) else .ok ()

/-- Adds a formula at time 0. After a failure the assertions are as before. -/
def push (limit : Nat) (f : Formula) (encoding : Encoding) : Except EncodingError Unit × Encoding :=
  match checkHorizon limit f with
  | .error e => (.error e, encoding)
  | .ok () =>
    match (f.unroll 0).run encoding.table with
    | (.ok term, table) => (.ok (), ⟨table, encoding.assertions.push term⟩)
    | (.error e, table) => (.error e, { encoding with table })

def extend (limit : Nat) (f : Formula) (encoding : Encoding) : Except EncodingError Encoding :=
  match encoding.push limit f with
  | (.ok (), encoding) => .ok encoding
  | (.error e, _) => .error e

def ofFormulas (limit : Nat) (formulas : List Formula) : Except EncodingError Encoding :=
  formulas.foldlM (fun encoding f => encoding.extend limit f) {}

def declarations (encoding : Encoding) : List String := encoding.table.symbols

def termSize (encoding : Encoding) : Nat := Term.sizeAll encoding.assertions.toList

def script (encoding : Encoding) : String :=
  Script.text encoding.declarations encoding.assertions.toList

end Encoding
end MissionTime
