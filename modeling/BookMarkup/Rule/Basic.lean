import BookMarkup.Tree.Edit

/-!
Rules: named edits that rewrite one structure of a tree wherever it occurs and count what they
touched. A rule with nothing to do counts zero.
-/

namespace BookMarkup

structure Rule where
  name : String
  apply : Tree.Edit Nat

namespace Rule

/-- A rule that was not carried out. -/
structure Failure where
  rule : String
  cause : Tree.Failure
  deriving DecidableEq, Repr

def faultMessage (rule : String) (fault : Tree.Fault) : String :=
  s!"Rule '{rule}' failed: " ++ fault.message

/-- Runs the rules in order on one tree and adds up what they touched. Later rules see the names and
places that earlier ones give. -/
def runAll : List Rule → EStateM Failure Tree Nat
  | [] => return 0
  | r :: rules => do
    let n ← r.apply.adaptExcept (Failure.mk r.name)
    let m ← runAll rules
    return n + m

/-- Code and screen blocks, before and after renaming. -/
def codeBlocks : String := "screen|programlisting"

end Rule

end BookMarkup
