import FaiVerif.Lib.SortedMap
import Mathlib.Data.Prod.Lex
import Mathlib.Data.String.Basic

/-!
# Packages, sources and requirements

The data of package resolution. Semantic versions and their requirements come from outside the
repository: they are two types here, with an order on the versions.
-/

namespace Fai.Package

/-- A logical package in a repository. -/
structure GitPackage where
  /-- Canonical repository locator. -/
  repository : String
  /-- Package directory within the repository. -/
  subdir : String
  deriving DecidableEq

/-- A logical package, independent of dependency aliases and selected revisions. -/
inductive PackageKey where
  | git (package : GitPackage)
  | path (path : String)
  deriving DecidableEq

/-- The immutable revision or mutable directory supplying a package. -/
inductive PackageSource where
  | git (package : GitPackage) (revision : String)
  | path (path : String)
  deriving DecidableEq

namespace PackageKey

/-- The components a key is ordered by. -/
def components : PackageKey → Bool ×ₗ (String ×ₗ String)
  | git package => toLex (false, toLex (package.repository, package.subdir))
  | path text => toLex (true, toLex (text, ""))

/-- The components tell keys apart. -/
theorem components_injective : Function.Injective components := by
  intro a b same
  cases a with
  | git a =>
    cases b with
    | git b =>
      obtain ⟨repository, subdir⟩ := a
      obtain ⟨repository', subdir'⟩ := b
      simp [components] at same
      obtain ⟨rfl, rfl⟩ := same
      rfl
    | path => simp [components] at same
  | path a =>
    cases b with
    | git => simp [components] at same
    | path b =>
      simp [components] at same
      rw [same]

instance : LinearOrder PackageKey := LinearOrder.lift' components components_injective

end PackageKey

namespace PackageSource

/-- The components a source is ordered by. -/
def components : PackageSource → Bool ×ₗ (String ×ₗ (String ×ₗ String))
  | git package revision =>
    toLex (false, toLex (package.repository, toLex (package.subdir, revision)))
  | path text => toLex (true, toLex (text, toLex ("", "")))

/-- The components tell sources apart. -/
theorem components_injective : Function.Injective components := by
  intro a b same
  cases a with
  | git a revision =>
    cases b with
    | git b revision' =>
      obtain ⟨repository, subdir⟩ := a
      obtain ⟨repository', subdir'⟩ := b
      simp [components] at same
      obtain ⟨rfl, rfl, rfl⟩ := same
      rfl
    | path => simp [components] at same
  | path a =>
    cases b with
    | git => simp [components] at same
    | path b =>
      simp [components] at same
      rw [same]

instance : LinearOrder PackageSource := LinearOrder.lift' components components_injective

end PackageSource

/-- A source selector on one dependency edge. -/
inductive PackageSelector (Req : Type) where
  | version (requirement : Req)
  | revision (revision : String)
  | branch (branch : String)
  | path (requirement : Option Req)
  deriving DecidableEq

/-- A link back to an authored manifest field. -/
structure RequirementOrigin where
  /-- Manifest identifier chosen by the caller. -/
  manifest : String
  /-- Field path in the manifest. -/
  field : String
  deriving DecidableEq

/-- One declared dependency. -/
structure PackageRequirement (Req : Type) where
  /-- Identity to unify within this graph. -/
  package : PackageKey
  /-- Authored source or version constraint. -/
  selector : PackageSelector Req
  /-- Source provenance for conflict explanations. -/
  origin : RequirementOrigin
  deriving DecidableEq

/-- A parsed target. -/
structure TargetPlatform where
  /-- The target triple as it is displayed. -/
  triple : String
  /-- Manifest operating-system value. -/
  os : String
  /-- Manifest architecture value. -/
  arch : String
  /-- Manifest environment value. -/
  environment : String
  deriving DecidableEq

/-- A conjunction of exact target properties; omitted ones match any value. -/
structure PlatformPredicate where
  /-- The operating system. -/
  os : Option String
  /-- The architecture. -/
  arch : Option String
  /-- The environment. -/
  environment : Option String
  deriving DecidableEq

/-- Whether all specified properties match a target. -/
def PlatformPredicate.matches (predicate : PlatformPredicate) (target : TargetPlatform) : Bool :=
  predicate.os.all (· == target.os) && predicate.arch.all (· == target.arch) &&
    predicate.environment.all (· == target.environment)

/-- Maps are compared by their entries. -/
instance {κ ν : Type} [LinearOrder κ] [DecidableEq ν] : DecidableEq (SortedMap κ ν) :=
  fun a b => decidable_of_iff (a.entries = b.entries) SortedMap.ext_iff.symm

/-- Validated metadata of a candidate package snapshot. -/
structure PackageCandidate (Version Req : Type) where
  /-- Actual selected source. -/
  source : PackageSource
  /-- Version declared by this snapshot. -/
  version : Version
  /-- Whether the declared version has a verified release tag here. -/
  released : Bool
  /-- Compatible compiler releases. -/
  compiler : Req
  /-- Empty for unrestricted, otherwise alternatives. -/
  platforms : List PlatformPredicate
  /-- Active normal dependencies by alias. -/
  dependencies : SortedMap String (PackageRequirement Req)
  /-- Active development declarations, used only for the selected root. -/
  development : SortedMap String (PackageRequirement Req)
  /-- Digest of the semantic manifest inputs. -/
  manifestFingerprint : String
  /-- Verified source digest, absent for local directories. -/
  checksum : Option String
  deriving DecidableEq

/-- A previously selected source and version. -/
structure PackagePin (Version : Type) where
  /-- Exact previous source. -/
  source : PackageSource
  /-- Previous declared version. -/
  version : Version
  /-- Whether a release mapping was accepted. -/
  released : Bool
  /-- Branch selections to retain. -/
  branches : SortedMap String String

/-- The pin of a candidate, without branch provenance. -/
def PackagePin.candidate {Version Req : Type} (candidate : PackageCandidate Version Req) :
    PackagePin Version :=
  ⟨candidate.source, candidate.version, candidate.released, SortedMap.empty⟩

/-- Whether a candidate is the pinned source and version. -/
def PackagePin.matches {Version Req : Type} [DecidableEq Version] (pin : PackagePin Version)
    (candidate : PackageCandidate Version Req) : Bool :=
  pin.source == candidate.source && pin.version == candidate.version

/-- Candidate metadata returned by a source provider. -/
structure CandidateSet (Version Req : Type) where
  /-- All available candidates. -/
  candidates : List (PackageCandidate Version Req)
  /-- Bindings of requested branches to revisions. -/
  branches : SortedMap String String

/-- A retrieval or integrity failure. -/
structure ProviderFailure where
  /-- Diagnostic category. -/
  code : String
  /-- Explanation. -/
  message : String

/-- Version-selection preference, after all constraints are enforced. -/
inductive ResolutionPolicy where
  | conservative
  | updateAll
  | update (targets : SortedMap PackageKey Unit)
  deriving DecidableEq

/-- Inputs for exactly one root and target. -/
structure ResolutionRequest (Version Req : Type) where
  /-- The selected root's logical identity. -/
  root : PackageKey
  /-- Current root metadata. -/
  candidate : PackageCandidate Version Req
  /-- Compiler eligibility filter. -/
  compiler : Version
  /-- Target eligibility filter. -/
  target : TargetPlatform
  /-- Existing source selections. -/
  pins : SortedMap PackageKey (PackagePin Version)
  /-- Root replacements, by original identity. -/
  overrides : SortedMap PackageKey (PackageRequirement Req)
  /-- Source-selection preferences. -/
  policy : ResolutionPolicy

/-- One exact graph edge; no origin denotes the synthetic development root. -/
structure ResolvedEdge where
  /-- Normal source package. -/
  origin : Option PackageKey
  /-- Authored import alias. -/
  aliasName : String
  /-- Selected logical package. -/
  target : PackageKey
  deriving DecidableEq

/-- A complete source graph with one selection per logical package. -/
structure ResolvedGraph (Version Req : Type) where
  /-- Selected root. -/
  root : PackageKey
  /-- Exact selected sources and metadata. -/
  packages : SortedMap PackageKey (PackageCandidate Version Req)
  /-- Exact alias-labelled normal and development edges. -/
  edges : List ResolvedEdge
  /-- Branch bindings used in this solution. -/
  branches : SortedMap PackageKey (SortedMap String String)

/-- The requirements that cannot be satisfied together. -/
structure ResolutionConflict (Req : Type) where
  /-- Causal requirements. -/
  requirements : List (PackageRequirement Req)
  /-- Explanation. -/
  message : String

/-- Unsatisfiability, or a fatal provider failure. -/
inductive ResolutionError (Req : Type) where
  | conflict (conflict : ResolutionConflict Req)
  | provider (failure : ProviderFailure)

end Fai.Package
