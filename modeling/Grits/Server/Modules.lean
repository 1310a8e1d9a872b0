import Grits.Library.DepthFirst
import Grits.Library.SlashPath

/-!
# The modules of a server

`sortModulesByDependency` of `internal/gritsd/modules.go`: dependencies name types of modules,
of which a server may have none or several, and the marks of the visit are kept for each
module.  A `Module` is a pointer.
-/

namespace Grits

open Relation DepthFirst

/-- `DependencyType` -/
inductive DependencyType where
  | dependOptional
  | dependRequired
  | dependAutoCreate
  deriving DecidableEq

/-- `Dependency`, but for its config generator. -/
structure Dependency where
  moduleType : GoString
  type : DependencyType
  deriving DecidableEq

/-- What the modules say of themselves. -/
structure ModuleMethods (M : Type) where
  getModuleName : M → GoString
  getDependencies : M → List Dependency

namespace ModuleMethods

variable {M : Type} (I : ModuleMethods M)

/-- `modulesByType` -/
def modulesByType (modules : List M) (moduleType : GoString) : List M :=
  modules.filter fun m => I.getModuleName m = moduleType

/-- The modules that the loops of `visit` go through. -/
def dependencies (modules : List M) (m : M) : List M :=
  (I.getDependencies m).flatMap fun dep => I.modulesByType modules dep.moduleType

/-- `sortModulesByDependency`; `none` if the recursion of `visit` gets deeper than there are
modules. -/
def sortModulesByDependency [DecidableEq M] (modules : List M) : Option (List M) :=
  DepthFirst.sort (I.dependencies modules) modules

/-- A module of the type `t` depends on the type `t'`, and there are modules of it. -/
def DependsOn (modules : List M) (t t' : GoString) : Prop :=
  (∃ m ∈ modules, I.getModuleName m = t ∧ ∃ dep ∈ I.getDependencies m, dep.moduleType = t') ∧
    ∃ d ∈ modules, I.getModuleName d = t'

/-- The types of the modules do not depend on each other in a circle. -/
def Acyclic (modules : List M) : Prop := ∀ t, ¬ TransGen (I.DependsOn modules) t t

variable {I} {modules : List M} {m d : M}

theorem mem_modulesByType {moduleType : GoString} :
    d ∈ I.modulesByType modules moduleType ↔ d ∈ modules ∧ I.getModuleName d = moduleType := by
  simp [modulesByType]

theorem mem_dependencies : d ∈ I.dependencies modules m ↔
    d ∈ modules ∧ ∃ dep ∈ I.getDependencies m, I.getModuleName d = dep.moduleType := by
  rw [dependencies, List.mem_flatMap]
  constructor
  · rintro ⟨dep, hdep, hd⟩
    obtain ⟨hmem, htype⟩ := mem_modulesByType.mp hd
    exact ⟨hmem, dep, hdep, htype⟩
  · rintro ⟨hmem, dep, hdep, htype⟩
    exact ⟨dep, hdep, mem_modulesByType.mpr ⟨hmem, htype⟩⟩

/-- A path between modules is one between their types. -/
theorem transGen_dependsOn (hm : m ∈ modules)
    (h : TransGen (Edge (I.dependencies modules)) m d) :
    TransGen (I.DependsOn modules) (I.getModuleName m) (I.getModuleName d) ∧ d ∈ modules := by
  have hedge : ∀ v w, v ∈ modules → Edge (I.dependencies modules) v w →
      I.DependsOn modules (I.getModuleName v) (I.getModuleName w) ∧ w ∈ modules := by
    intro v w hv hw
    obtain ⟨hmem, dep, hdep, htype⟩ := mem_dependencies.mp hw
    exact ⟨⟨⟨v, hv, rfl, dep, hdep, htype.symm⟩, w, hmem, rfl⟩, hmem⟩
  induction h with
  | single hw =>
      obtain ⟨hdepends, hmem⟩ := hedge _ _ hm hw
      exact ⟨TransGen.single hdepends, hmem⟩
  | tail _ hw ih =>
      obtain ⟨hpath, hv⟩ := ih
      obtain ⟨hdepends, hmem⟩ := hedge _ _ hv hw
      exact ⟨hpath.tail hdepends, hmem⟩

theorem Acyclic.edges (h : I.Acyclic modules) (m : M) :
    ¬ TransGen (Edge (I.dependencies modules)) m m := by
  intro hcircle
  have hm : m ∈ modules := by
    obtain ⟨v, -, hlast⟩ := TransGen.tail'_iff.mp hcircle
    exact (mem_dependencies.mp hlast).1
  exact h _ (transGen_dependsOn hm hcircle).1

/-- `sortModulesByDependency` ends, with every module once, and if the types do not depend on
each other in a circle, each module comes after those it depends on. -/
theorem sortModulesByDependency_topological [DecidableEq M] (I : ModuleMethods M) (modules : List M) :
    ∃ sorted, I.sortModulesByDependency modules = some sorted ∧
      sorted.Perm modules.dedup ∧ (modules.Nodup → sorted.Perm modules) ∧
      (I.Acyclic modules → ∀ m ∈ modules, ∀ dep ∈ I.getDependencies m, ∀ d ∈ modules,
        I.getModuleName d = dep.moduleType → Precedes sorted d m) := by
  have hclosed : ∀ v ∈ modules, ∀ w ∈ I.dependencies modules v, w ∈ modules :=
    fun v _ w hw => (mem_dependencies.mp hw).1
  obtain ⟨sorted, hsorted⟩ := exists_sort hclosed
  have hperm : sorted.Perm modules.dedup := sort_perm hclosed hsorted
  refine ⟨sorted, hsorted, hperm, ?_, ?_⟩
  · intro hnodup
    rwa [hnodup.dedup] at hperm
  · intro hacyclic m hm dep hdep d hd htype
    have hmem : m ∈ sorted := hperm.mem_iff.mpr (List.mem_dedup.mpr hm)
    have hnext : d ∈ I.dependencies modules m := mem_dependencies.mpr ⟨hd, dep, hdep, htype⟩
    exact sort_ordered hacyclic.edges hsorted m hmem d hnext

end ModuleMethods

/-! ## A server with four modules -/

inductive ServerModule where
  | volume
  | startup
  | http
  | mirror
  deriving DecidableEq

/-- The names and the dependencies of the modules. -/
def serverModules : ModuleMethods ServerModule where
  getModuleName
    | .volume => "volume".toList
    | .startup => "startup".toList
    | .http => "http".toList
    | .mirror => "mirror".toList
  getDependencies
    | .volume => []
    | .startup => [⟨"volume".toList, .dependOptional⟩, ⟨"cmdline".toList, .dependOptional⟩]
    | .http => [⟨"peer".toList, .dependOptional⟩, ⟨"startup".toList, .dependOptional⟩]
    | .mirror => [⟨"http".toList, .dependRequired⟩]

/-- The most dependent module first. -/
def mirrorFirst : List ServerModule := [.mirror, .http, .startup, .volume]

theorem sortModulesByDependency_mirrorFirst :
    serverModules.sortModulesByDependency mirrorFirst =
      some [.volume, .startup, .http, .mirror] := by
  decide

theorem sortModulesByDependency_topological_mirrorFirst :
    mirrorFirst.Nodup ∧ ∃ sorted, serverModules.sortModulesByDependency mirrorFirst = some sorted ∧
      sorted.Perm mirrorFirst := by
  have hnodup : mirrorFirst.Nodup := by decide
  obtain ⟨sorted, hsorted, -, hperm, -⟩ :=
    ModuleMethods.sortModulesByDependency_topological serverModules mirrorFirst
  exact ⟨hnodup, sorted, hsorted, hperm hnodup⟩

end Grits
