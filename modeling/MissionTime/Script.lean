import MissionTime.Term.Printer

/-! The SMT-LIB script of one query: the logic, the declarations, the assertions and the question, each on
a line of its own. -/
namespace MissionTime

def Script.text (declarations : List String) (assertions : List Term) : String :=
  let text := declarations.foldl (fun text name => text ++ s!"(declare-const {Term.quote name} Bool)\n")
    "(set-logic QF_UF)\n"
  let text := assertions.foldl (fun text term => text ++ s!"(assert {term.text})\n") text
  text ++ "(check-sat)\n"

end MissionTime
