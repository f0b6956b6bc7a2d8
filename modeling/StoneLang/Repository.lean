/-
  Programs in a repository.

  A repository is a line of commits, the newest first, with names for some of them.  A revision starts
  from a name and may take steps back (`StoneLang.Revision`).  A short name stands for the first full
  name that it can be completed to; tags come before branches.
-/
import StoneLang.Revision
import StoneLang.Source

namespace StoneLang

/-- A state of the files. -/
structure Commit where
  /-- How the commit is named in a failure. -/
  id : Text
  files : List (Text × Text)
deriving DecidableEq, Repr

/-- A line of commits with names. -/
structure Repository where
  /-- The commits, the newest first. -/
  commits : List Commit
  /-- The full names, each with the commits from the named one on. -/
  names : List (Text × List Commit)

namespace Repository

def head : Text := text "HEAD"

/-- The full names that a short name may stand for, in the order in which they are tried. -/
def completions (name : Text) : List Text :=
  [name, text "refs/" ++ name, text "refs/tags/" ++ name, text "refs/heads/" ++ name]

def named? (r : Repository) (name : Text) : Option (List Commit) :=
  (completions name).findSome? fun full =>
    if full = head then (if r.commits = [] then none else some r.commits)
    else r.names.lookup full

/-- The commits after one part of a revision.  Every commit has one parent, the first none; commits have
no messages, so that no pattern matches one. -/
def follow (r : Repository) (commits : List Commit) : Revision.Part → Except Text (List Commit)
  | .reference name =>
    match r.named? name with
    | some commits => .ok commits
    | none => .error (text "reference not found")
  | .back count => reach (commits.drop count)
  | .parent 0 => .ok commits
  | .parent 1 => reach (commits.drop 1)
  | .parent _ => reach []
  | .matching pattern false => .error (text "no commit message match regexp: " ++ pattern.quoted)
  | _ => .ok commits
where
  /-- The commits, if there are any. -/
  reach (commits : List Commit) : Except Text (List Commit) :=
    if commits = [] then .error (text "EOF") else .ok commits

/-- The commit that a revision denotes. -/
def resolve (r : Repository) (revision : Text) : Except Failure Commit :=
  let failed (reason : Text) : Except Failure Commit :=
    .error (.plain (text "resolve revision " ++ revision ++ text ": " ++ reason))
  match Revision.parse revision with
  | .error fault => failed (text "Revision invalid : " ++ fault)
  | .ok parts =>
    match parts.foldlM (fun commits part => r.follow commits part) [] with
    | .ok (commit :: _) => .ok commit
    | .ok [] => failed (text "reference not found")
    | .error reason => failed reason

/-- The program at a path in the commit that a revision denotes; the newest one if it is blank. -/
def load (r : Repository) (revision path : Text) : Except Failure Source := do
  let revision := if revision.trim = [] then head else revision.trim
  let commit ← r.resolve revision
  match commit.files.lookup path with
  | some content => .ok ⟨revision ++ text ":" ++ path, content, []⟩
  | none => .error (.plain (text "read " ++ path ++ text " at " ++ commit.id ++ text ": file not found"))

def empty : Repository := ⟨[], []⟩

def trunk : Text := text "refs/heads/master"

def setName (r : Repository) (full : Text) : Repository :=
  { r with names := (full, r.commits) :: r.names.filter fun (n, _) => n != full }

/-- The repository after a commit that writes some files and removes others, with its names. -/
def commit (r : Repository) (id : Text) (written : List (Text × Text)) (removed : List Text)
    (tag branch : Option Text) : Repository :=
  let before := (r.commits.head?.map Commit.files).getD []
  let kept := before.filter fun (path, _) => !removed.contains path && (written.lookup path).isNone
  let added := written.filter fun (path, _) => !removed.contains path
  let r := ({ r with commits := ⟨id, added ++ kept⟩ :: r.commits } : Repository).setName trunk
  let r := match tag with
    | some name => r.setName (text "refs/tags/" ++ name)
    | none => r
  match branch with
  | some name => r.setName (text "refs/heads/" ++ name)
  | none => r

end Repository

end StoneLang
