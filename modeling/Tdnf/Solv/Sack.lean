import Tdnf.Common.Error
import Tdnf.Library.PathText

/-!
# The pool of packages

The solvables of all repositories with their names, and the lookup of solvables
by a NEVRA string.
-/

namespace Tdnf.Solv

open PathText

/-- A repository of the pool. -/
structure SackRepo where
  repoid : ℕ
  name : Text
deriving DecidableEq, Repr

/-- A solvable, with the id of its repository; strings stand for their ids, which are
one-to-one. -/
structure Solvable where
  name : Text
  evr : Text
  arch : Text
  repo : ℕ
deriving DecidableEq, Repr

/-- The pool of a sack. There is a repository of installed packages, which alone has its id, and
one for packages of the command line. -/
structure Sack where
  /-- `FOR_REPOS` -/
  repos : List SackRepo
  /-- `pool->installed->repoid` -/
  installed : ℕ
  /-- `FOR_POOL_SOLVABLES` -/
  ids : List ℕ
  solvable : ℕ → Solvable
  nodup : ids.Nodup
  owned : ∀ p ∈ ids, ∃ repo ∈ repos, repo.repoid = (solvable p).repo
  system : ∀ repo ∈ repos, repo.repoid = installed → repo.name = "@System".toList
  cmdline : ∃ repo ∈ repos, repo.name = "@cmdline".toList

/-- The repositories of every sack: of installed packages, and of the command line. -/
def ownRepos : List SackRepo := [⟨0, "@System".toList⟩, ⟨1, "@cmdline".toList⟩]

theorem ownRepos_system : ∀ repo ∈ ownRepos, repo.repoid = 0 → repo.name = "@System".toList := by
  decide

theorem ownRepos_cmdline : ∃ repo ∈ ownRepos, repo.name = "@cmdline".toList := by
  decide

namespace Sack

variable (sack : Sack)

/-- `s->repo == pool->installed` -/
def isInstalled (p : ℕ) : Bool := (sack.solvable p).repo == sack.installed

/-- `is_pseudo_package` -/
def isPseudo (p : ℕ) : Bool := "patch:".toList.isPrefixOf (sack.solvable p).name

end Sack

/-- The parts of a text before and behind the last occurrence of a character; the first part
is not empty. -/
def splitLast (c : Char) (s : Text) : Option (Text × Text) :=
  match s.reverse.dropWhile (· != c) with
  | [] => none
  | _ :: before =>
    if before = [] then none else some (before.reverse, s.drop (before.length + 1))

/-- `split_nevra`: the name, the version with the release, and the architecture -/
def splitNevra (nevra : Text) : Option (Text × Text × Text) := do
  let (rest, arch) ← splitLast '.' nevra
  let (rest, release) ← splitLast '-' rest
  let (name, version) ← splitLast '-' rest
  return (name, version ++ '-' :: release, arch)

/-- `SolvFindSolvablesByNevraId` -/
def findSolvablesByNevraId (sack : Sack) (name evr arch : Text) (installed : Bool) : List ℕ :=
  sack.ids.filter fun p =>
    installed == sack.isInstalled p && (sack.solvable p).name == name &&
      (sack.solvable p).evr == evr && (sack.solvable p).arch == arch

/-- `SolvFindSolvablesByNevraStr`; a name that is not in the pool has no solvables. -/
def findSolvablesByNevraStr (sack : Sack) (nevra : Text) (installed : Bool) :
    Except TdnfError (List ℕ) :=
  match splitNevra nevra with
  | none => .error .invalidParameter
  | some (name, evr, arch) => .ok (findSolvablesByNevraId sack name evr arch installed)

example : splitNevra "kernel-core-6.1-3.x86_64".toList =
    some ("kernel-core".toList, "6.1-3".toList, "x86_64".toList) := by decide

end Tdnf.Solv
