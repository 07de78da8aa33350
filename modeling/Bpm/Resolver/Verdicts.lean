import Bpm.Registry.Disjunction
import Bpm.Resolver.Peer

/-!
# Who satisfies a request

Placement tests a version with `request_matches`, peers are bound and workspaces are
linked by parsing a `VersionRange`.  The three verdicts are compared for every request
text and version.
-/

namespace Bpm

open Text

/-- Whether a request becomes a link to the workspace filed under the name. -/
def workspaceLinks (crates : Crates) (index : WorkspaceIndex) (name r : Str) : Bool :=
  match index.resolve crates name r with
  | .ok (.link _) => true
  | .ok (.registry _) => false
  | .error _ => false

/-- Whether a declared peer can be bound to the provider in sight. -/
def peerBinds (crates : Crates) (candidate : VersionMetadata) (visible : VisibleProviders)
    (peer r : Str) : Bool :=
  (bindPeers crates candidate visible [(peer, r)] ∅).toOption.isSome

/-- Placement, peer binding and workspace linking give one verdict. -/
structure VerdictsAgree (crates : Crates) (r : Str) (v : Version) : Prop where
  ranges : requestMatches crates r v = rangeAccepts crates r v
  binding : ∀ candidate visible peer provider, visible.providers[peer]? = some provider →
    crates.parseVersion provider.identity.version = some v →
      peerBinds crates candidate visible peer r = requestMatches crates r v
  linking : ∀ index name w, index.byName[name]? = some w → w.version = v →
    workspaceLinks crates index name r = requestMatches crates r v

/-- A peer is bound when the version of its provider is in range. -/
theorem peerBinds_eq {crates : Crates} {visible : VisibleProviders} {peer : Str}
    {provider : VisibleProvider} {v : Version} (hprovider : visible.providers[peer]? = some provider)
    (hv : crates.parseVersion provider.identity.version = some v) (candidate : VersionMetadata)
    (r : Str) : peerBinds crates candidate visible peer r = rangeAccepts crates r v := by
  unfold peerBinds bindPeers rangeAccepts
  simp only [hprovider]
  cases VersionRange.parse crates r with
  | none => rfl
  | some range =>
      simp only [hv, Option.any_some]
      cases range.matchesVersion crates v <;> simp [bindPeers, Except.toOption]

/-- A request that is not of the `workspace:` protocol links when the version of the
workspace is in range. -/
theorem workspaceLinks_eq {crates : Crates} {index : WorkspaceIndex} {name : Str}
    {w : IndexedWorkspace} (hw : index.byName[name]? = some w) {r : Str}
    (hr : WorkspaceSpec.parse r = none) :
    workspaceLinks crates index name r = rangeAccepts crates r w.version := by
  unfold workspaceLinks WorkspaceIndex.resolve rangeAccepts
  simp only [hr, hw]
  cases VersionRange.parse crates r with
  | none => rfl
  | some range => cases hmatch : range.matchesVersion crates w.version <;> simp [hmatch]

/-- The verdicts on a range text agree exactly when it constrains, and nothing else is
compatible with a bare version. -/
theorem verdictsAgree_iff {crates : Crates} (hcrates : crates.Semver) (r : Str)
    (hr : WorkspaceSpec.parse r = none) (v : Version) :
    VerdictsAgree crates r v ↔ Constrains r ∧ ExactAgrees crates r v := by
  have hiff := requestMatches_eq_rangeAccepts_iff hcrates r v
  constructor
  · intro h
    have hcond := hiff.mp h.ranges
    exact ⟨⟨hcond.1, hcond.2.1⟩, hcond.2.2⟩
  · rintro ⟨hconstrains, hexact⟩
    have hranges := hiff.mpr ⟨hconstrains.1, hconstrains.2, hexact⟩
    refine ⟨hranges, ?_, ?_⟩
    · intro candidate visible peer provider hprovider hv
      rw [peerBinds_eq hprovider hv, hranges]
    · rintro index name w hw rfl
      rw [workspaceLinks_eq hw hr, hranges]

theorem verdictsAgree_caret :
    VerdictsAgree Release.crates (lit "^1.2.3") (Release.version 1 3 0) :=
  (verdictsAgree_iff Release.crates_semver _ (by decide) _).mpr ⟨by decide, by
    intro e he
    have hnone : Release.crates.parseVersion (trim (lit "^1.2.3")) = none := by decide
    rw [hnone] at he
    cases he⟩

/-- A workspace at `1.3.0` is linked for the request `1.2.3`, which placement reads as
exact; the tag satisfies placement and is no range for a peer. -/
theorem not_verdictsAgree :
    ¬ VerdictsAgree Release.crates (lit "1.2.3") (Release.version 1 3 0) ∧
      ¬ VerdictsAgree Release.crates (lit "latest") (Release.version 1 3 0) := by
  have hbare : requestMatches Release.crates (lit "1.2.3") (Release.version 1 3 0) = false ∧
      rangeAccepts Release.crates (lit "1.2.3") (Release.version 1 3 0) = true := by
    decide
  have htag : requestMatches Release.crates (lit "latest") (Release.version 1 3 0) = true ∧
      rangeAccepts Release.crates (lit "latest") (Release.version 1 3 0) = false := by
    decide
  constructor <;> intro h <;> have hranges := h.ranges
  · rw [hbare.1, hbare.2] at hranges
    cases hranges
  · rw [htag.1, htag.2] at hranges
    cases hranges

end Bpm
