import BookMarkup.Tree.Edit

/-!
Edits as data, so that whole runs of them can be spoken of: a change names an edit with its
arguments, and performing it gives an outcome.
-/

namespace BookMarkup.Tree

inductive Change
  | create (content : Node)
  | setRoot (id : NodeId)
  | detach (id : NodeId)
  | remove (id : NodeId)
  | appendChild (parent child : NodeId)
  | insertChild (parent : NodeId) (index : Nat) (child : NodeId)
  | insertBefore (reference id : NodeId)
  | insertAfter (reference id : NodeId)
  | rename (id : NodeId) (tag : String)
  | setAttribute (id : NodeId) (name value : String)
  | removeAttribute (id : NodeId) (name : String)
  | renameAttribute (id : NodeId) (old new : String)
  | clear

/-- What a change answers: the number of a new node, the value of a removed attribute, whether an
attribute was renamed, or nothing. -/
inductive Change.Outcome
  | done
  | created (id : NodeId)
  | removed (value : Option String)
  | renamed (found : Bool)
  deriving DecidableEq, Repr

def Change.perform : Change → Edit Change.Outcome
  | .create content => return .created (← Edit.create content)
  | .setRoot id => do Edit.setRoot id; return .done
  | .detach id => do Edit.detach id; return .done
  | .remove id => do Edit.remove id; return .done
  | .appendChild parent child => do Edit.appendChild parent child; return .done
  | .insertChild parent index child => do Edit.insertChild parent index child; return .done
  | .insertBefore reference id => do Edit.insertBefore reference id; return .done
  | .insertAfter reference id => do Edit.insertAfter reference id; return .done
  | .rename id tag => do Edit.rename id tag; return .done
  | .setAttribute id name value => do Edit.setAttribute id name value; return .done
  | .removeAttribute id name => return .removed (← Edit.removeAttribute id name)
  | .renameAttribute id old new => return .renamed (← Edit.renameAttribute id old new)
  | .clear => do Edit.clear; return .done

end BookMarkup.Tree
