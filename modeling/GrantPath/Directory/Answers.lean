import GrantPath.Directory.Basic
import GrantPath.Service

/-! # Directories as collaborators

A directory answers every request out of what it holds, at once and without changing.
-/

namespace GrantPath.Directory

/-- What a directory answers to a request. -/
def answers (d : Directory) : Answers
  | .permissions principal owner activity target => d.permissionsFor principal owner activity target
  | .groupMember principal => d.groupMember principal
  | .parentGroups member => d.parentGroups member
  | .newPrincipal member => d.newPrincipal member
  | .resolveOwner fname => d.resolveOwner fname
  | .resolveActivity owner fname => d.resolveActivity owner fname
  | .resolveTarget provider key => d.resolveTarget provider key

/-- A directory as a collaborator. -/
def service : Service Directory :=
  .ofAnswers answers

end GrantPath.Directory
