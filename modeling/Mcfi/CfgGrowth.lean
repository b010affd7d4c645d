import Mcfi.Activation
import Mcfi.GraphGrowth

namespace Mcfi

open LinkMap ByteMem

/-!
# Growing the CFG

Loading a module and taking an address only add to the metadata of the modules, so
a later generation should keep the components of the graphs, give an id to every
node that had one, and rewrite every word.  It does unless a class table that arrives
with a later module makes an instance method of a function that was the target of
function pointers.
-/

section Extensions

/-- What a generation reads of a module, apart from the taken addresses. -/
def CodeModule.metadata (codeModule : CodeModule) :
    List Icf × List Function × ClassTable × LinkMap Name Name × LinkMap Name Name ×
      Nat × Nat × Bool × List Symbol × List Symbol × List Symbol × List Symbol :=
  (codeModule.icfs, codeModule.functions, codeModule.classes, codeModule.cha,
    codeModule.aliases, codeModule.words)

/-- Loaded modules, with more names among the taken addresses and modules behind. -/
structure Extends (before after : List CodeModule) : Prop where
  metadata : KeepsView CodeModule.metadata before after
  fats : ∀ name ∈ (mergeMcfiMetainfo before).fats,
    name ∈ (mergeMcfiMetainfo after).fats

namespace Extends

theorem refl (modules : List CodeModule) : Extends modules modules :=
  ⟨KeepsView.refl modules, fun _ taken => taken⟩

theorem trans {first second third : List CodeModule}
    (left : Extends first second) (right : Extends second third) :
    Extends first third :=
  ⟨left.metadata.trans right.metadata,
    fun name taken => right.fats name (left.fats name taken)⟩

/-- Names that a module keeps taken are taken. -/
theorem of_views {before after : List CodeModule}
    (metadata : KeepsView CodeModule.metadata before after)
    (fats : KeepsView CodeModule.fats before after) : Extends before after := by
  refine ⟨metadata, fun name taken => ?_⟩
  obtain ⟨codeModule, loaded, inModule⟩ :=
    (mem_mergeMcfiMetainfo before name).1.mp taken
  obtain ⟨later, stillLoaded, same⟩ := fats.exists_mem loaded
  exact (mem_mergeMcfiMetainfo after name).1.mpr ⟨later, stillLoaded, same ▸ inModule⟩

variable {before after : List CodeModule} (grown : Extends before after)
include grown

/-- A module stays loaded with its metadata. -/
theorem exists_mem {codeModule : CodeModule} (loaded : codeModule ∈ before) :
    ∃ later ∈ after, later.metadata = codeModule.metadata :=
  grown.metadata.exists_mem loaded

/-- What a module adds to a merged list it still adds. -/
private theorem mem_flatMap {α : Type} {field : CodeModule → List α} {item : α}
    (ofMetadata : ∀ first second : CodeModule, first.metadata = second.metadata →
      field first = field second)
    (listed : item ∈ before.flatMap field) : item ∈ after.flatMap field := by
  obtain ⟨codeModule, loaded, inModule⟩ := List.mem_flatMap.mp listed
  obtain ⟨later, stillLoaded, same⟩ := grown.exists_mem loaded
  exact List.mem_flatMap.mpr ⟨later, stillLoaded, ofMetadata _ _ same ▸ inModule⟩

/-- The table of a class stays that of the first module that has one. -/
theorem find_classes {className : Name} {methods : OrdDict Name UInt8}
    (found : (mergeMcfiMetainfo before).classes.find className = some methods) :
    (mergeMcfiMetainfo after).classes.find className = some methods := by
  have ofMetadata : ∀ modules : List CodeModule,
      (mergeMcfiMetainfo modules).classes.find className =
        (modules.map CodeModule.metadata).findSome?
          fun data => data.2.2.1.find className := by
    intro modules
    rw [find_mergedClasses, List.findSome?_map]
    rfl
  obtain ⟨rest, appended⟩ := grown.metadata
  rw [ofMetadata] at found ⊢
  rw [← appended, List.findSome?_append, found, Option.some_or]

/-- A function that is a method stays the same method. -/
theorem methodAttrs {f : Function} {attrs : UInt8}
    (isMethod : Mcfi.methodAttrs (mergeMcfiMetainfo before).classes f = some attrs) :
    Mcfi.methodAttrs (mergeMcfiMetainfo after).classes f = some attrs := by
  unfold Mcfi.methodAttrs dictFind at isMethod ⊢
  cases classNamed : f.className with
  | none => simp [classNamed] at isMethod
  | some className =>
      cases methodNamed : f.methodName with
      | none => simp [classNamed, methodNamed] at isMethod
      | some methodName =>
          simp only [classNamed, methodNamed] at isMethod ⊢
          cases found : (mergeMcfiMetainfo before).classes.find className with
          | none => simp [found] at isMethod
          | some methods =>
              rw [grown.find_classes found]
              rw [found] at isMethod
              exact isMethod

/-- A virtual method stays one. -/
theorem virtualEntry {className methodName : Name}
    (isEntry : Mcfi.virtualEntry (mergeMcfiMetainfo before).classes className
      methodName = true) :
    Mcfi.virtualEntry (mergeMcfiMetainfo after).classes className methodName =
      true := by
  unfold Mcfi.virtualEntry dictFind at isEntry ⊢
  cases found : (mergeMcfiMetainfo before).classes.find className with
  | none => simp [found] at isEntry
  | some methods =>
      rw [grown.find_classes found]
      rw [found] at isEntry
      exact isEntry

/-- What the graph of some module has, that of some module still has. -/
private theorem exists_graph {field : CodeModule → LinkMap Name Name}
    (ofMetadata : ∀ first second : CodeModule, first.metadata = second.metadata →
      field first = field second) (Has : LinkMap Name Name → Prop)
    (has : ∃ codeModule ∈ before, Has (field codeModule)) :
    ∃ codeModule ∈ after, Has (field codeModule) := by
  obtain ⟨codeModule, loaded, inModule⟩ := has
  obtain ⟨later, stillLoaded, same⟩ := grown.exists_mem loaded
  exact ⟨later, stillLoaded, ofMetadata _ _ same ▸ inModule⟩

/-- The components of the merged hierarchy grow. -/
theorem cha {left right : Name}
    (same : SameComponent (mergeMcfiMetainfo before).cha left right) :
    SameComponent (mergeMcfiMetainfo after).cha left right := by
  have ofMetadata : ∀ first second : CodeModule, first.metadata = second.metadata →
      first.cha = second.cha := fun _ _ same => congrArg (·.2.2.2.1) same
  refine ⟨(mem_mergedGraphs after left).1.mpr (grown.exists_graph ofMetadata
    (fun graph => left ∈ graph) ((mem_mergedGraphs before left).1.mp same.1)),
    same.2.transport fun first second linked => ?_⟩
  exact connected_of_linked ((linked_mergeMcfiMetainfo after first second).1.mpr
    (grown.exists_graph ofMetadata (fun graph => Linked graph first second)
      ((linked_mergeMcfiMetainfo before first second).1.mp linked)))

/-- The components of the merged aliases grow. -/
theorem aliases {left right : Name}
    (same : SameComponent (mergeMcfiMetainfo before).aliases left right) :
    SameComponent (mergeMcfiMetainfo after).aliases left right := by
  have ofMetadata : ∀ first second : CodeModule, first.metadata = second.metadata →
      first.aliases = second.aliases := fun _ _ same => congrArg (·.2.2.2.2.1) same
  refine ⟨(mem_mergedGraphs after left).2.mpr (grown.exists_graph ofMetadata
    (fun graph => left ∈ graph) ((mem_mergedGraphs before left).2.mp same.1)),
    same.2.transport fun first second linked => ?_⟩
  exact connected_of_linked ((linked_mergeMcfiMetainfo after first second).2.mpr
    (grown.exists_graph ofMetadata (fun graph => Linked graph first second)
      ((linked_mergeMcfiMetainfo before first second).2.mp linked)))

/-- The metadata grows when the targets of function pointers stay plain functions. -/
theorem grows
    (plain : ∀ f ∈ (mergeMcfiMetainfo before).functions,
      (mergeMcfiMetainfo before).PlainTarget f →
        instanceAttrs (mergeMcfiMetainfo after).classes f = none) :
    (mergeMcfiMetainfo before).Grows (mergeMcfiMetainfo after) where
  icfs icf listed := by
    rw [(mergeMcfiMetainfo_lists _).1] at listed ⊢
    exact grown.mem_flatMap (fun _ _ same => congrArg (·.1) same) listed
  functions f listed := by
    rw [(mergeMcfiMetainfo_lists _).2] at listed ⊢
    exact grown.mem_flatMap (fun _ _ same => congrArg (·.2.1) same) listed
  fats := grown.fats
  methods f _ attrs isMethod := by
    rw [instanceAttrs, Option.filter_eq_some_iff] at isMethod ⊢
    exact ⟨grown.methodAttrs isMethod.1, isMethod.2⟩
  plain := plain
  entries _ _ isEntry := grown.virtualEntry isEntry
  cha _ _ same := grown.cha same
  aliases _ _ same := grown.aliases same

/-- Return addresses stay where they are. -/
theorem returns : KeepsReturns before after := by
  intro codeModule loaded
  obtain ⟨later, stillLoaded, same⟩ := grown.exists_mem loaded
  have rad : later.rad = codeModule.rad :=
    congrArg (fun data => data.2.2.2.2.2.2.2.2.2.1) same
  have rai : later.rai = codeModule.rai :=
    congrArg (fun data => data.2.2.2.2.2.2.2.2.2.2.1) same
  exact ⟨later, stillLoaded, by rw [raEdges, raEdges, rad, rai]⟩

end Extends

end Extensions

section Calls

/-- Searching for a function keeps the taken names. -/
theorem mem_fats_locate
    {modules located : List CodeModule} {funcAddr : Nat}
    {names : Option (KeySet Name)} {name : Name}
    (returned : takeAddrAndGenCfg.locate modules funcAddr = .ok (located, names))
    (taken : ∃ codeModule ∈ modules, name ∈ codeModule.fats) :
    ∃ codeModule ∈ located, name ∈ codeModule.fats := by
  induction modules generalizing funcAddr located names with
  | nil =>
      obtain ⟨_, never, _⟩ := taken
      cases never
  | cons head rest inductionHypothesis =>
      have passed : ∀ {later found} {addr : Nat},
          takeAddrAndGenCfg.locate rest addr = .ok (later, found) →
            ∃ codeModule ∈ head :: later, name ∈ codeModule.fats := by
        intro later found addr searched
        rw [List.exists_mem_cons_iff] at taken ⊢
        exact taken.imp_right fun inRest => inductionHypothesis searched inRest
      rw [takeAddrAndGenCfg.locate] at returned
      split at returned
      next =>
        split at returned
        next added _ =>
          obtain ⟨fats, grown, stored⟩ := bind_eq_ok.mp returned
          cases stored
          rw [List.exists_mem_cons_iff] at taken ⊢
          exact taken.imp_left fun inHead =>
            ((foldlM_dictAdd_eq_ok grown).2.2.2 name).mpr (.inr inHead)
        next =>
          obtain ⟨⟨later, found⟩, searched, stored⟩ := bind_eq_ok.mp returned
          cases stored
          exact passed searched
      next =>
        obtain ⟨⟨later, found⟩, searched, stored⟩ := bind_eq_ok.mp returned
        cases stored
        exact passed searched

/-- Searching for a function only adds taken names. -/
theorem extends_locate
    {modules located : List CodeModule} {funcAddr : Nat}
    {names : Option (KeySet Name)}
    (returned : takeAddrAndGenCfg.locate modules funcAddr = .ok (located, names)) :
    Extends modules located where
  metadata := KeepsView.of_map_eq (map_locate (fun _ _ => rfl) returned)
  fats name taken := (mem_mergeMcfiMetainfo located name).1.mpr
    (mem_fats_locate returned ((mem_mergeMcfiMetainfo modules name).1.mp taken))

/-- The calls that load modules, generate the CFG and patch the code. -/
def Call.Extends (_ : Runtime) : Call → Prop
  | .load _ => True
  | .generate _ => True
  | .takeAddress _ _ => True
  | .patchAt _ => True
  | .patchEntry _ => True
  | .patchCall _ => True
  | .createHeap _ _ _ _ => False
  | .fill _ _ _ _ _ => False
  | .register _ _ => False

/-- A generation reads the modules as they are. -/
theorem extends_genCfg
    {attrs : UInt8} {before after : Runtime}
    (returned : genCfg attrs before = .ok after) :
    Extends before.modules after.modules := by
  obtain ⟨_, _, outcome⟩ := genCfg_result returned
  apply Extends.of_views
  all_goals
    apply KeepsView.of_map_eq
    rw [outcome.modulesAre, List.map_map]
    rfl

/-- Such calls extend the modules, and a CFG that is there stays there. -/
theorem Call.Extends.keeps
    {call : Call} {before after : Runtime} (extending : call.Extends before)
    (returned : call.run before = .ok after) :
    Mcfi.Extends before.modules after.modules ∧
      (before.cfggened = true → after.cfggened = true) := by
  have generated : ∀ {attrs : UInt8} {runtime : Runtime},
      genCfg attrs runtime = .ok after → after.cfggened = true := by
    intro attrs runtime generates
    obtain ⟨_, _, outcome⟩ := genCfg_result generates
    exact outcome.cfggenedIs
  cases call with
  | load parsed =>
      cases returned
      exact ⟨.of_views (KeepsView.append _ _) (KeepsView.append _ _), id⟩
  | generate attrs => exact ⟨extends_genCfg returned, fun _ => generated returned⟩
  | takeAddress attrs funcAddr =>
      obtain ⟨⟨modules, names⟩, searched, generates⟩ := bind_eq_ok.mp returned
      cases names with
      | none => cases generates
      | some names =>
          exact ⟨(extends_locate searched).trans (extends_genCfg generates),
            fun _ => generated generates⟩
  | patchAt patchpoint =>
      obtain ⟨_, _, _, rfl, _⟩ := patchAt_cases returned
      exact ⟨.refl _, id⟩
  | patchEntry patchpoint =>
      obtain ⟨_, _, _, _, _, _, _, _, rfl, _⟩ := patchEntry_cases returned
      exact ⟨.of_views (KeepsView.of_map_eq (map_modifyModule _ _ fun _ => rfl))
        (KeepsView.of_map_eq (map_modifyModule _ _ fun _ => rfl)), id⟩
  | patchCall patchpoint =>
      rcases patchCall_cases returned with rfl | ⟨_, _, _, _, _, _, rfl⟩
      · exact ⟨.refl _, id⟩
      · exact ⟨.refl _, id⟩
  | createHeap ph page size verifier => exact extending.elim
  | fill bufferAddr handle dst src extra => exact extending.elim
  | register handle metadata => exact extending.elim

/-- The states that such calls reach. -/
def ExtensionRun : Runtime → Runtime → Prop :=
  Relation.ReflTransGen fun before after =>
    ∃ call, Admitted Call.Extends before call after

/-- What every such call keeps, the run keeps. -/
theorem ExtensionRun.keeps
    {before after : Runtime} (run : ExtensionRun before after) :
    Extends before.modules after.modules ∧
      (before.cfggened = true → after.cfggened = true) := by
  induction run with
  | refl => exact ⟨.refl _, id⟩
  | tail _ step inductionHypothesis =>
      obtain ⟨call, admitted⟩ := step
      have kept := admitted.admitted.keeps admitted.returned
      exact ⟨inductionHypothesis.1.trans kept.1, kept.2 ∘ inductionHypothesis.2⟩

end Calls

section Generations

/-- A generation of the CFG that returns. -/
structure Generation where
  attrs : UInt8
  before : Runtime
  cfg : CfgData
  after : Runtime
  computed : computeCfg attrs before = .ok cfg
  returned : genCfg attrs before = .ok after

namespace Generation

/-- The merged metadata that a generation reads. -/
def info (generation : Generation) : Metainfo :=
  mergeMcfiMetainfo generation.before.modules

/-- The version that a generation stamps on its words, with bit 0 set. -/
def stamp (generation : Generation) : Nat :=
  (convertToMcfiHalfIdFormat generation.before.version).1 + 1

/-- A generation writes the Tary word at an address. -/
def Writes (generation : Generation) (addr : Nat) : Prop :=
  ∃ codeModule ∈ generation.before.modules,
    ∃ store ∈ genTary generation.cfg.tables codeModule, store.addr = addr

/-- The generation that a call runs, maybe after it has added taken addresses. -/
inductive RunBy (runtime : Runtime) (generation : Generation) : Prop where
  | generate (before : generation.before = runtime)
  | takeAddress
      {funcAddr : Nat} {modules : List CodeModule} {names : KeySet Name}
      (located : takeAddrAndGenCfg.locate runtime.modules funcAddr =
        .ok (modules, some names))
      (before : generation.before = { runtime with modules := modules })

/-- A generation that a call runs reads the modules, with more taken addresses. -/
theorem RunBy.keeps {runtime : Runtime} {generation : Generation}
    (runBy : generation.RunBy runtime) :
    Extends runtime.modules generation.before.modules ∧
      generation.before.cfggened = runtime.cfggened := by
  cases runBy with
  | generate before =>
      rw [before]
      exact ⟨.refl _, rfl⟩
  | takeAddress located before =>
      rw [before]
      exact ⟨extends_locate located, rfl⟩

end Generation

/--
The targets of function pointers in one generation are plain functions in another,
and neither files a function by a stale attribute byte.
-/
structure KeepsTargets (first second : Generation) : Prop where
  plain : ∀ f ∈ first.info.functions, first.info.PlainTarget f →
    instanceAttrs second.info.classes f = none
  firstFresh : NoStaleVirtual first.info.classes first.attrs first.info.functions
  secondFresh : NoStaleVirtual second.info.classes second.attrs second.info.functions

/-- The components of both graphs grow, and every node with an id keeps one. -/
structure CfgGrows (earlier later : CfgData) : Prop where
  callgraph : ∀ left right, SameComponent earlier.callgraph left right →
    SameComponent later.callgraph left right
  retgraph : ∀ left right, SameComponent earlier.retgraph left right →
    SameComponent later.retgraph left right
  callids : ∀ key ∈ earlier.tables.callids, key ∈ later.tables.callids
  retids : ∀ key ∈ earlier.tables.retids, key ∈ later.tables.retids

/-- A later generation writes all words of an earlier one, and no active one is old. -/
structure Rewrites (first second : Generation) : Prop where
  writes : ∀ addr, first.Writes addr → second.Writes addr
  fresh : ∀ addr, first.Writes addr → Active second.after.table addr →
    second.after.table.load64 addr % 2 ^ 32 = second.stamp

/-- The graphs of a generation that extends another one grow. -/
theorem KeepsTargets.cfgGrows {first second : Generation}
    (keeps : KeepsTargets first second)
    (grown : Extends first.before.modules second.before.modules) :
    CfgGrows first.cfg second.cfg := by
  obtain ⟨old⟩ := computeCfg_facts first.computed
  obtain ⟨new⟩ := computeCfg_facts second.computed
  have grows := grown.grows keeps.plain
  have oldCha := undirected_cha first.before.modules
  have newCha := undirected_cha second.before.modules
  have callgraph : ∀ left right, SameComponent first.cfg.callgraph left right →
      SameComponent second.cfg.callgraph left right := fun _ _ same =>
    grows.sameComponent old.parts new.parts newCha keeps.firstFresh keeps.secondFresh
      oldCha same
  have retgraph : ∀ left right, SameComponent first.cfg.retgraph left right →
      SameComponent second.cfg.retgraph left right := by
    rw [old.retgraphIs, new.retgraphIs]
    exact fun _ _ same => grows.sameReturnComponent old.parts new.parts newCha
      keeps.firstFresh keeps.secondFresh oldCha grown.returns same
  refine ⟨callgraph, retgraph, fun key present => ?_, fun key present => ?_⟩
  · rw [old.assignment.callIds.memIff] at present
    rw [new.assignment.callIds.memIff]
    exact (callgraph key key ⟨present, Relation.ReflTransGen.refl⟩).1
  · rw [old.assignment.retIds.memIff] at present
    rw [new.assignment.retIds.memIff]
    exact (retgraph key key ⟨present, Relation.ReflTransGen.refl⟩).1

/-- A symbol with an id has one in a CFG that has grown. -/
theorem CfgGrows.id {earlier later : CfgData} (grows : CfgGrows earlier later)
    (kind : TaryKind) {key : Nat} (present : key ∈ kind.ids earlier.tables) :
    key ∈ kind.ids later.tables := by
  cases kind with
  | function => exact grows.callids key present
  | directReturn => exact grows.retids key present
  | indirectReturn => exact grows.retids key present

/-- A generation whose CFG has grown writes every word that the other one writes. -/
theorem CfgGrows.writes {first second : Generation}
    (grows : CfgGrows first.cfg second.cfg)
    (grown : Extends first.before.modules second.before.modules) {addr : Nat}
    (written : first.Writes addr) : second.Writes addr := by
  obtain ⟨codeModule, loaded, store, stored, rfl⟩ := written
  cases flag : codeModule.instrumented with
  | false =>
      obtain ⟨later, stillLoaded, same⟩ := grown.exists_mem loaded
      have base : later.baseAddr = codeModule.baseAddr :=
        congrArg (fun data => data.2.2.2.2.2.1) same
      have size : later.sz = codeModule.sz :=
        congrArg (fun data => data.2.2.2.2.2.2.1) same
      have native : later.instrumented = false :=
        (congrArg (fun data => data.2.2.2.2.2.2.2.1) same).trans flag
      refine ⟨later, stillLoaded, store, ?_, rfl⟩
      rw [mem_genTary_native flag] at stored
      rw [mem_genTary_native native, base, size]
      exact stored
  | true =>
      obtain ⟨target, instrumented, addrIs, found⟩ := genTary_symbol loaded flag stored
      have words : KeepsView CodeModule.words first.before.modules
          second.before.modules := by
        have kept := grown.metadata.map fun data => data.2.2.2.2.2
        rwa [List.map_map, List.map_map] at kept
      obtain ⟨later, sameAddr, sameFlag, sameKind, sameSym⟩ := words.tarySymbol target
      have present := grows.id target.kind (OrdDict.mem_of_find found)
      obtain ⟨id, laterFound⟩ := OrdDict.exists_find_of_mem present
      have laterId : later.id second.cfg.tables = some id := by
        rw [TarySymbol.id, TarySymbol.node, sameKind, sameSym]
        exact laterFound
      obtain ⟨laterStore, laterStored, laterAddr, _⟩ :=
        exists_genTary (sameFlag.trans instrumented) laterId
      exact ⟨later.codeModule, later.loaded, laterStore, laterStored,
        laterAddr.trans (sameAddr.trans addrIs.symm)⟩

/-- A store of a generation is even, or has the version of the generation. -/
theorem store_stamped {attrs : UInt8} {runtime : Runtime} {cfg : CfgData}
    (facts : CfgFacts attrs runtime cfg) {store : TableStore}
    (stored : store ∈ tableUpdate cfg.tables runtime.modules)
    (odd : store.word % 2 = 1) :
    store.word % 2 ^ 32 = (convertToMcfiHalfIdFormat runtime.version).1 + 1 := by
  rcases tableUpdate_store stored with
    ⟨target, _, _, found⟩ | ⟨_, _, _, _, storeIs, _⟩ | ⟨branch, rfl⟩
  · exact (facts.assignment.taryId_isId target.kind found).low
  · have even : ¬ nativeWord % 2 = 1 := by decide
    rw [storeIs] at odd
    exact absurd odd even
  · cases mode : runtime.compatMode with
    | false => exact (facts.assignment.baryId_isId mode branch.sym).low
    | true =>
        simp only [TableStore.word, baryId, dictFind] at odd ⊢
        split
        next id found => exact (facts.assignment.callid_isId found).low
        next noCallId =>
          rw [noCallId] at odd
          split
          next id found => exact (facts.assignment.retid_isId found).low
          next noRetId =>
            -- the id for others is a bare marker in this mode
            simp only [noRetId, facts.assignment.othersAre, mode, if_true] at odd
            exact absurd odd (by decide)

/-- After a generation each active word that it has written has its version. -/
theorem Generation.active_stamped {generation : Generation}
    (generated : generation.before.cfggened = true)
    (aligned : AlignedSymbols generation.before.modules) {addr : Nat}
    (written : generation.Writes addr)
    (active : Active generation.after.table addr) :
    generation.after.table.load64 addr % 2 ^ 32 = generation.stamp := by
  obtain ⟨cfg, computed, outcome⟩ := genCfg_result generation.returned
  rw [generation.computed] at computed
  cases computed
  obtain ⟨facts⟩ := computeCfg_facts generation.computed
  have tableIs : generation.after.table =
      (fillTables generation.cfg generation.before).table := by
    rw [outcome.tableIs, compensated, if_pos generated]
  obtain ⟨codeModule, loaded, store, inTary, rfl⟩ := written
  have stored : store ∈ tableUpdate generation.cfg.tables
      generation.before.modules :=
    mem_tableUpdate.mpr ⟨codeModule, loaded, .inl inTary⟩
  have lastStore : (fillTables generation.cfg generation.before).table.load64
      store.addr % 2 = 1 →
      (fillTables generation.cfg generation.before).table.load64 store.addr % 2 ^ 32 =
        generation.stamp := by
    refine load64_runStores
      (motive := fun word => word % 2 = 1 → word % 2 ^ 32 = generation.stamp)
      (fun other otherStored => tableUpdate_apart aligned
        (tableUpdate_aligned aligned stored) otherStored) ⟨store, stored, rfl⟩ ?_
    intro other otherStored here current
    have fits := facts.fits otherStored
    rw [← here]
    rcases other.load64_exec current fits with whole | ⟨masked, _⟩
    · rw [whole]
      exact store_stamped facts otherStored
    · rw [masked]
      intro odd
      rw [deactivate_even fits] at odd
      cases odd
  rw [tableIs]
  rw [Active, tableIs] at active
  exact lastStore active

/--
When modules are only loaded and addresses only taken, the CFG grows, and a later
generation rewrites every word of an earlier one and leaves no active word with an
old version, if the targets of function pointers stay plain functions.
-/
theorem cfg_only_grows {first second : Generation} {runtime : Runtime}
    (run : ExtensionRun first.after runtime) (runBy : second.RunBy runtime)
    (aligned : AlignedSymbols second.before.modules)
    (keeps : KeepsTargets first second) :
    CfgGrows first.cfg second.cfg ∧ Rewrites first second := by
  have toAfter := run.keeps
  have toSecond := runBy.keeps
  have grown : Extends first.before.modules second.before.modules :=
    (extends_genCfg first.returned).trans (toAfter.1.trans toSecond.1)
  obtain ⟨_, _, outcome⟩ := genCfg_result first.returned
  have generated : second.before.cfggened = true :=
    toSecond.2.trans (toAfter.2 outcome.cfggenedIs)
  have grows := keeps.cfgGrows grown
  exact ⟨grows, fun addr => grows.writes grown, fun addr written active =>
    second.active_stamped generated aligned (grows.writes grown written) active⟩

end Generations

namespace GrowthExample

/-- A class, and a method of it that a branch calls through a function pointer. -/
def method : Function where
  name := Name.ofPtr 16
  className := some (Name.ofPtr 80)
  methodName := some (Name.ofPtr 96)
  type := some (Name.ofPtr 64)
  returns := []
  dtails := []
  itails := []

/-- A module with the function and the branch, but without a table of the class. -/
def program : CodeModule :=
  { allocCodeModule with
    baseAddr := 0x400000
    baseAligned := programBase_aligned
    sz := pageSize
    sizeAligned := Nat.mod_self pageSize
    icfs := [⟨Name.ofPtr 32, .normalCall (some (Name.ofPtr 64))⟩]
    functions := [method]
    fatsInData := (∅ : KeySet Name).insertNew (Name.ofPtr 16) ()
    funcsyms := [⟨Name.ofPtr 16, 0⟩]
    icfsyms := [⟨Name.ofPtr 32, 0⟩]
    instrumented := true }

/-- A library, with the class tables it has. -/
def library (classes : ClassTable) : CodeModule :=
  { allocCodeModule with
    baseAddr := 0x500000
    baseAligned := libraryBase_aligned
    sz := pageSize
    sizeAligned := Nat.mod_self pageSize
    classes := classes
    instrumented := true }

/-- The table of the class. -/
def classTable : ClassTable :=
  (∅ : ClassTable).insertNew (Name.ofPtr 80)
    ((∅ : OrdDict Name UInt8).insertNew (Name.ofPtr 96) 0)

/-- The process has loaded the program. -/
def started : Runtime :=
  loadElf program Runtime.boot

/--
Whether the function has an id before and after the library is loaded, the version
then, and the Tary word of the function after the second generation.
-/
def observe (classes : ClassTable) : Rt (Bool × Bool × Nat × Nat) := do
  let early ← computeCfg 0 started
  let middle ← genCfg 0 started
  let linked := loadElf (library classes) middle
  let late ← computeCfg 0 linked
  let final ← genCfg 0 linked
  return (decide (markFunc method.name ∈ early.tables.callids),
    decide (markFunc method.name ∈ late.tables.callids), linked.version,
    final.table.load64 0x400000)

/-- The two generations that are observed. -/
theorem exists_generations {classes : ClassTable} {early late : Bool}
    {version word : Nat}
    (observed : (observe classes).toOption = some (early, late, version, word)) :
    ∃ first second : Generation, (first.attrs = 0 ∧ first.before = started) ∧
      (second.attrs = 0 ∧ second.before = loadElf (library classes) first.after) ∧
      (markFunc method.name ∈ first.cfg.tables.callids ↔ early = true) ∧
      (markFunc method.name ∈ second.cfg.tables.callids ↔ late = true) ∧
      second.before.version = version ∧
      second.after.table.load64 0x400000 = word := by
  obtain ⟨earlyCfg, earlyRuns, observed⟩ := bind_eq_ok.mp (toOption_eq_some.mp observed)
  obtain ⟨middle, middleRuns, observed⟩ := bind_eq_ok.mp observed
  obtain ⟨lateCfg, lateRuns, observed⟩ := bind_eq_ok.mp observed
  obtain ⟨final, finalRuns, stored⟩ := bind_eq_ok.mp observed
  cases stored
  exact ⟨⟨0, started, earlyCfg, middle, earlyRuns, middleRuns⟩,
    ⟨0, _, lateCfg, final, lateRuns, finalRuns⟩, ⟨rfl, rfl⟩, ⟨rfl, rfl⟩,
    decide_eq_true_iff.symm, decide_eq_true_iff.symm, rfl, rfl⟩

/-- The program when its CFG has been generated. -/
def generatedProgram : CodeModule :=
  { program with
    icfsyms := [⟨Name.ofPtr 32, bidSlotStart⟩]
    fats := (∅ : KeySet Name).insertNew (Name.ofPtr 16) ()
    cfggened := true }

/-- The modules of the process after the library has been loaded. -/
theorem modules_linked {first : Generation} (begins : first.before = started)
    (classes : ClassTable) :
    (loadElf (library classes) first.after).modules =
      [generatedProgram, library classes] := by
  obtain ⟨_, _, outcome⟩ := genCfg_result first.returned
  simp only [loadElf, outcome.modulesAre, begins]
  rfl

/-- All symbols of the two modules lie on whole words. -/
theorem aligned_linked {first : Generation} (begins : first.before = started)
    (classes : ClassTable) :
    AlignedSymbols (loadElf (library classes) first.after).modules := by
  rw [modules_linked begins classes]
  constructor
  · rintro ⟨codeModule, loaded, kind, sym, listed⟩
    rcases List.mem_cons.mp loaded with rfl | inRest
    · cases kind with
      | function => cases List.mem_singleton.mp listed; rfl
      | directReturn => cases listed
      | indirectReturn => cases listed
    · cases List.mem_singleton.mp inRest
      cases kind <;> cases listed
  · rintro ⟨codeModule, loaded, sym, listed⟩
    rcases List.mem_cons.mp loaded with rfl | inRest
    · cases List.mem_singleton.mp listed
      exact show bidSlotStart % 8 = 0 by decide
    · cases List.mem_singleton.mp inRest
      cases listed

end GrowthExample

open GrowthExample in
/-- The class table of a function that function pointers called comes too late. -/
theorem stale_id_survives :
    ∃ (first second : Generation) (runtime : Runtime),
      ExtensionRun first.after runtime ∧ second.RunBy runtime ∧
        AlignedSymbols second.before.modules ∧
        ¬ CfgGrows first.cfg second.cfg ∧ ¬ Rewrites first second := by
  obtain ⟨first, second, ⟨_, begins⟩, ⟨_, continues⟩, hadId, hasId, versionIs, wordIs⟩ :=
    exists_generations (show (observe classTable).toOption = some (true, false, 2, 3) by
      decide +kernel)
  refine ⟨first, second, second.before, ?_, .generate rfl, ?_, fun grows => ?_,
    fun rewrites => ?_⟩
  · rw [continues]
    exact .single ⟨.load (library classTable), trivial, rfl⟩
  · rw [continues]
    exact aligned_linked begins classTable
  · exact absurd (hasId.mp (grows.callids _ (hadId.mpr rfl))) Bool.false_ne_true
  · have written : first.Writes 0x400000 := by
      obtain ⟨id, found⟩ := OrdDict.exists_find_of_mem (hadId.mpr rfl)
      rw [Generation.Writes, begins]
      refine ⟨_, List.mem_singleton_self _, _, (mem_genTary_instrumented rfl).mpr
        (.inl ⟨⟨method.name, 0⟩, List.mem_singleton_self _, id, found, rfl⟩), rfl⟩
    have stale := rewrites.fresh 0x400000 written (by rw [Active, wordIs])
    rw [wordIs, Generation.stamp, versionIs] at stale
    exact absurd stale (by decide +kernel)

open GrowthExample in
/-- A library that does not know the class. -/
theorem cfg_only_grows_library :
    ∃ first second : Generation,
      second.before = loadElf (library ∅) first.after ∧
        CfgGrows first.cfg second.cfg ∧ Rewrites first second := by
  obtain ⟨first, second, ⟨firstAttrs, begins⟩, ⟨secondAttrs, continues⟩, _⟩ :=
    exists_generations (show (observe ∅).toOption = some (true, true, 2, 5) by
      decide +kernel)
  have firstInfo : first.info.functions = [method] := by
    rw [Generation.info, begins]
    rfl
  have secondInfo : second.info.functions = [method] ∧
      methodAttrs second.info.classes method = none := by
    rw [Generation.info, continues, modules_linked begins]
    exact ⟨rfl, rfl⟩
  have run : ExtensionRun first.after second.before := by
    rw [continues]
    exact .single ⟨.load (library ∅), trivial, rfl⟩
  refine ⟨first, second, continues,
    cfg_only_grows run (.generate rfl) ?_ ⟨fun f listed _ => ?_, ?_, ?_⟩⟩
  · rw [continues]
    exact aligned_linked begins ∅
  · rw [firstInfo, List.mem_singleton] at listed
    rw [listed, instanceAttrs, secondInfo.2]
    rfl
  · rw [firstInfo, firstAttrs]
    exact ⟨fun _ _ _ => by decide, trivial⟩
  · rw [secondInfo.1, secondAttrs]
    exact ⟨fun _ _ _ => by decide, trivial⟩

end Mcfi
