import ProgramSlicer.Andersen.CollectedFlows
import ProgramSlicer.Andersen.FlowEnumeration

/-!
What nothing is known of, and what is loaded through it. The store that is to make the
universal object point to itself goes through that object's own set, so it does nothing
until some other store has put the universal object there.
-/
namespace ProgramSlicer.Andersen
open InclusionConstraints AndersNodeFactory

def Avoids (flows : Set Flow) : Prop := ∀ f ∈ flows, f.dest ≠ .universalObject

section Avoids
variable {flows more : Set Flow} {α : Type}

theorem avoids_flow {type : ConstraintType} {dest src : Option Place}
    (other : dest ≠ some .universalObject) : Avoids (flow type dest src) := by
  intro f mem same
  exact other (same ▸ mem.2.1)

theorem avoids_if {c : Bool} (avoids : Avoids flows) : Avoids (flowsIf c flows) :=
  fun f mem => avoids f mem.2

theorem avoids_empty : Avoids ∅ := nofun

theorem avoids_union (one : Avoids flows) (two : Avoids more) : Avoids (flows ∪ more) := by
  intro f mem
  rcases mem with here | there
  · exact one f here
  · exact two f there

theorem avoids_iUnion {P : α → Prop} {each : α → Set Flow} (avoids : ∀ x, Avoids (each x)) :
    Avoids (⋃ x, ⋃ (_ : P x), each x) := by
  intro f mem
  obtain ⟨x, _, inX⟩ := Set.mem_iUnion₂.mp mem
  exact avoids x f inX

theorem constant_place_ne (c : Constant) : c.place ≠ some .universalObject := by
  induction c using Constant.place.induct with
  | case4 base offset ih => exact ih
  | case5 operand ih => exact ih
  | _ => simp [Constant.place, valuePlace]

theorem place_ne (v : PtrValue) : v.place ≠ some .universalObject := by
  cases v with
  | constant c => exact constant_place_ne c
  | _ => simp [PtrValue.place, valuePlace]

theorem argument_place_ne (args : List PtrValue) (k : Nat) :
    argumentPlace args k ≠ some .universalObject := by
  unfold argumentPlace
  cases args[k]? with
  | none => nofun
  | some v => exact place_ne v

theorem unknownFlows_avoid (v : PtrValue) : Avoids v.unknownFlows := avoids_flow (place_ne v)

theorem object_place_ne (v : Entity) : objectPlace v ≠ some .universalObject := by
  simp [objectPlace]

mutual

theorem flowsInto_avoid (v : Entity) : ∀ c : Constant, Avoids (c.flowsInto (objectPlace v))
  | .aggregate elements => by
    simp only [Constant.flowsInto]
    exact allFlows_avoid v elements
  | .undefAggregate | .scalar => avoids_empty
  | .aggregateZero | .pointerNull | .undefPointer | .globalValue _ | .getElementPtr _ _
  | .bitCast _ | .intToPtr | .pointerExpr => by
    simp only [Constant.flowsInto]
    exact avoids_flow (object_place_ne v)

theorem allFlows_avoid (v : Entity) :
    ∀ cs : List Constant, Avoids (Constant.flowsInto.allFlows (objectPlace v) cs)
  | [] => avoids_empty
  | c :: rest => avoids_union (flowsInto_avoid v c) (allFlows_avoid v rest)

end

variable (names : FuncId → String) (M : PtrModule) (I : PtrInstruction) (args : List PtrValue)

theorem allocationFlows_avoid : Avoids (allocationFlows I args) := by
  unfold allocationFlows
  dsimp only
  split
  · exact avoids_flow (place_ne _)
  · exact avoids_flow (argument_place_ne args 0)

theorem memcpyFlows_avoid : Avoids (memcpyFlows I args) := by
  apply avoids_union
  · rintro f ⟨dest, src, isDest, _, rfl | rfl⟩
    · nofun
    · intro same
      obtain rfl : dest = .universalObject := same
      exact argument_place_ne args 0 isDest
  · exact avoids_if (avoids_flow (place_ne _))

theorem avoids_of_table {c : Prop} [Decidable c] {here : Set Flow} {later : Option (Set Flow)}
    (known : (if c then some here else later) = some flows) (avoids : Avoids here)
    (rest : later = some flows → Avoids flows) : Avoids flows := by
  split at known
  · exact Option.some.inj known ▸ avoids
  · exact rest known

theorem libraryFlows_avoid (F : PtrFunction) {flows : Set Flow}
    (known : libraryFlows names M I args F = some flows) : Avoids flows := by
  have returned : ∀ k, Avoids (returnedFlows I args k) := fun k => avoids_flow (place_ne _)
  apply avoids_of_table known avoids_empty
  intro known
  apply avoids_of_table known (allocationFlows_avoid I args)
  intro known
  apply avoids_of_table known
  · split
    · exact returned 0
    · exact allocationFlows_avoid I args
  intro known
  apply avoids_of_table known (returned 0)
  intro known
  apply avoids_of_table known (returned 1)
  intro known
  apply avoids_of_table known (returned 2)
  intro known
  apply avoids_of_table known (memcpyFlows_avoid I args)
  intro known
  apply avoids_of_table known (avoids_if (avoids_flow (argument_place_ne args 0)))
  intro known
  apply avoids_of_table known (avoids_flow (argument_place_ne args 0))
  exact fun absent => nomatch absent

theorem getD_avoids {known : Option (Set Flow)} {otherwise : Set Flow}
    (avoids : ∀ flows, known = some flows → Avoids flows) (other : Avoids otherwise) :
    Avoids (known.getD otherwise) := by
  cases known with
  | none => exact other
  | some flows => exact avoids flows rfl

theorem argumentFlows_avoid (F : PtrFunction) : Avoids (F.argumentFlows args) := by
  apply avoids_union
  · refine avoids_iUnion fun pair => avoids_if ?_
    split
    · exact avoids_flow (place_ne _)
    · exact unknownFlows_avoid _
  · exact avoids_if (avoids_iUnion fun v => avoids_if (avoids_flow nofun))

theorem directFlows_avoid (F : PtrFunction) : Avoids (directFlows names M I args F) := by
  unfold directFlows
  split
  · apply getD_avoids fun flows => libraryFlows_avoid names M I args F
    apply avoids_union (avoids_if (unknownFlows_avoid _))
    exact avoids_iUnion fun v => avoids_if (unknownFlows_avoid v)
  · exact avoids_union (avoids_if (avoids_flow (place_ne _))) (argumentFlows_avoid args F)

theorem targetFlows_avoid (F : PtrFunction) : Avoids (targetFlows names M I args F) := by
  apply avoids_if
  split
  · apply getD_avoids fun flows => libraryFlows_avoid names M I args F
    exact avoids_iUnion fun v => unknownFlows_avoid v
  · exact argumentFlows_avoid args F

theorem callFlows_avoid (callee : Callee) : Avoids (callFlows names M I args callee) := by
  cases callee with
  | direct f => exact avoids_iUnion fun F => directFlows_avoid names M I args F
  | indirect v =>
    apply avoids_union (avoids_if (unknownFlows_avoid _))
    exact avoids_iUnion fun F => targetFlows_avoid names M I args F

theorem instructionFlows_avoid (F : PtrFunction) : Avoids (I.flows names M F) := by
  unfold PtrInstruction.flows
  have own : ∀ {type src}, Avoids (flow type I.value.place src) := avoids_flow (place_ne _)
  cases I.op with
  | alloca => exact own
  | call callee args => exact callFlows_avoid names M I args callee
  | ret value =>
    cases value with
    | none => exact avoids_empty
    | some v => exact avoids_if (avoids_flow nofun)
  | load p => exact avoids_if own
  | store v p => exact avoids_if (avoids_flow (place_ne p))
  | getElementPtr v => exact own
  | phi incoming => exact avoids_if (avoids_iUnion fun edge => own)
  | bitCast v => exact avoids_if own
  | intToPtr operand => cases operand <;> exact own
  | select v w => exact avoids_if (avoids_union own own)
  | vaArg => exact avoids_if own
  | _ => exact avoids_empty

theorem ownFlows_avoid : Avoids (M.ownFlows names) := by
  have address : ∀ v : GlobalValue, Avoids v.flows := fun v => avoids_flow nofun
  apply avoids_union
  · apply avoids_union
    · apply avoids_union
      · exact avoids_iUnion fun G => address _
      · exact avoids_iUnion fun F => avoids_if (address _)
    · refine avoids_iUnion fun G => ?_
      unfold GlobalVariable.flows
      dsimp only
      split
      · exact flowsInto_avoid _ _
      · exact avoids_flow (object_place_ne _)
  · refine avoids_iUnion fun F => avoids_if (avoids_iUnion fun I => ?_)
    exact instructionFlows_avoid names M I F

end Avoids

section Itself
variable {names : FuncId → String} {M : PtrModule}

theorem flow_into_universal {f : Flow} (mem : f ∈ M.flows names)
    (into : f.dest = .universalObject) : f = ⟨.STORE, .universalObject, .universalObject⟩ := by
  rcases mem with (rfl | rfl | rfl) | own
  · cases into
  · rfl
  · cases into
  · exact absurd into (ownFlows_avoid names M f own)

theorem storesUnknown_iff : M.storesUnknown names = true ↔ ∃ d s,
    ⟨.STORE, d, s⟩ ∈ M.ownFlows names ∧
    .universalObject ∈ solution (flowSystem (M.flows names)) d ∧
    .universalObject ∈ solution (flowSystem (M.flows names)) s := by
  simp only [PtrModule.storesUnknown, mem_reached_flows, Enumerated.mem_elems, decide_eq_true_eq]
  constructor
  · rintro ⟨⟨_, d, s⟩, own, rfl, pointer, value⟩
    exact ⟨d, s, own, pointer, value⟩
  · rintro ⟨d, s, own, pointer, value⟩
    exact ⟨_, own, rfl, pointer, value⟩

theorem stores_of_derives {p q : Place} (derived : Derives (flowSystem (M.flows names)) p q)
    (into : p = .universalObject) (known : q = .universalObject) :
    M.storesUnknown names = true := by
  induction derived with
  | addrOf c => cases flow_into_universal c into
  | copy c => cases flow_into_universal c into
  | load c => cases flow_into_universal c into
  | @store d s p o c pointee value ihPointee _ =>
    rcases c with (start | start | start) | own
    · cases start
    · -- the store through itself has its effect only afterwards
      cases start
      exact ihPointee rfl into
    · cases start
    · exact storesUnknown_iff.mpr ⟨d, s, own, into ▸ pointee, known ▸ value⟩

theorem universal_itself_iff :
    .universalObject ∈ solution (flowSystem (M.flows names)) .universalObject ↔
      M.storesUnknown names = true := by
  constructor
  · exact fun derived => stores_of_derives derived rfl rfl
  · intro stored
    obtain ⟨d, s, own, pointer, value⟩ := storesUnknown_iff.mp stored
    exact .store (.inr own) pointer value

end Itself

namespace Collection
variable {A : Collection} {names : FuncId → String} {M : PtrModule}

/-- Loaded from the universal pointer, once or several times over. -/
inductive LoadedThrough (A : Collection) : NodeIndex → Prop
  | pointer : LoadedThrough A UniversalPtrIndex
  | load {d s : NodeIndex} (c : ⟨.LOAD, d, s⟩ ∈ A.constraints) (through : LoadedThrough A s) :
      LoadedThrough A d

/-- What is read where nothing is known is not known either. -/
structure UnknownStays (M : PtrModule) (A : Collection) : Prop where
  itself : UniversalObjIndex ∈ solution (constraintSystem A.constraints) UniversalObjIndex
  loaded : ∀ n, A.LoadedThrough n →
    UniversalObjIndex ∈ solution (constraintSystem A.constraints) n
  globals : ∀ G ∈ M.globals, G.definitiveInitializer = none →
    ∃ n, A.node (.object (.globalValue (.globalVariable G.id))) = some n ∧
      UniversalObjIndex ∈ solution (constraintSystem A.constraints) n

theorem unknownStays_of_itself (renders : A.Renders (M.flows names))
    (itself : UniversalObjIndex ∈ solution (constraintSystem A.constraints) UniversalObjIndex) :
    A.UnknownStays M := by
  have known : ∀ {p n}, A.indexOf p = some n →
      (UniversalObjIndex ∈ solution (constraintSystem A.constraints) n ↔
        .universalObject ∈ solution (flowSystem (M.flows names)) p) :=
    fun found => solution_of_renders renders found rfl
  refine ⟨itself, fun n through => ?_, fun G mem external => ?_⟩
  · induction through with
    | pointer => exact (known rfl).mpr (.addrOf (.inl (.inl rfl)))
    | load c _ ih => exact .load c ih itself
  · let place : Place := .slot (.object (.globalValue (.globalVariable G.id)))
    have unset : ⟨.COPY, place, .universalObject⟩ ∈ M.flows names := by
      refine .inr (.inl (.inr (Set.mem_iUnion₂.mpr ⟨G, mem, ?_⟩)))
      unfold GlobalVariable.flows
      rw [external]
      exact ⟨rfl, rfl, rfl⟩
    obtain ⟨n, index⟩ := renders.used_node unset nofun
    exact ⟨n, index, (known index).mpr (.copy unset ((known rfl).mp itself))⟩

def selfStored : PtrModule where
  globals := []
  functions := [⟨0, [], false, false, false, [⟨0, [⟨0, true, .intToPtr .unknown⟩,
    ⟨1, false, .store (.instruction 0) (.instruction 0)⟩, ⟨2, false, .ret none⟩]⟩]⟩]
  global_nodup := List.nodup_nil
  func_nodup := by decide
  inst_nodup := by decide
  arg_nodup := by decide

def foreign : PtrModule where
  globals := [⟨0, none, false⟩]
  functions := [⟨0, [], false, false, false,
    [⟨0, [⟨0, true, .load (.constant .intToPtr)⟩, ⟨1, false, .ret none⟩]⟩]⟩]
  global_nodup := by decide
  func_nodup := by decide
  inst_nodup := by decide
  arg_nodup := by decide

theorem foreign_collected :
    (collectConstraints (addConstraintForExternalLibrary (fun _ => "main") foreign) foreign).map
      (fun A => (A.constraints, A.node (.object (.globalValue (.globalVariable 0))))) =
      some ([⟨.ADDR_OF, 0, 1⟩, ⟨.STORE, 1, 1⟩, ⟨.ADDR_OF, 2, 3⟩, ⟨.ADDR_OF, 4, 5⟩,
        ⟨.COPY, 5, 1⟩, ⟨.LOAD, 6, 0⟩], some 5) := by
  decide +kernel

end Collection
end ProgramSlicer.Andersen
