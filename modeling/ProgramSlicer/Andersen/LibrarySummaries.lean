import ProgramSlicer.Andersen.LibraryCalls

/-!
Which library summaries are sound. For each of the others there are node numbers, a
solution of the constraints and a state that the solution over-approximates before
the call and not after it.
-/
namespace ProgramSlicer.Andersen
open InclusionConstraints AndersNodeFactory Collection

/-! ### Numberings and sets that are given by slots -/

def nodeOf (slots : List Slot) (k : Slot) : Option Nat :=
  if k ∈ slots then some (4 + slots.idxOf k) else none

/-- A node for each slot of the list, in this order. -/
def numbering (slots : List Slot) : Collection where
  nodeFactory :=
    { numNodes := 4 + slots.length
      valueNodeMap := fun v => nodeOf slots (.value v)
      objNodeMap := fun v => nodeOf slots (.object v)
      returnMap := fun f => nodeOf slots (.ret f)
      varargMap := fun f => nodeOf slots (.vararg f) }
  constraints := []

theorem node_numbering (slots : List Slot) (k : Slot) :
    (numbering slots).node k = nodeOf slots k := by
  cases k <;> rfl

theorem nodeOf_bounds {slots : List Slot} {k : Slot} {n : Nat}
    (found : nodeOf slots k = some n) : 4 ≤ n ∧ n < 4 + slots.length := by
  unfold nodeOf at found
  split at found
  · rename_i mem
    have below := List.idxOf_lt_length_of_mem mem
    have same := Option.some.inj found
    omega
  · cases found

theorem nodeOf_apart {slots : List Slot} {k k' : Slot} {n : Nat}
    (found : nodeOf slots k = some n) (found' : nodeOf slots k' = some n) : k = k' := by
  unfold nodeOf at found found'
  split at found
  · rename_i mem
    split at found'
    · have same := (Option.some.inj found).trans (Option.some.inj found').symm
      exact (List.idxOf_inj mem).mp (by omega)
    · cases found'
  · cases found

theorem numbered_numbering {slots : List Slot} {I : PtrInstruction}
    (site : .value (.instruction I.id) ∈ slots ↔ I.pointerTy = true) :
    (numbering slots).Numbered I := by
  constructor
  · intro k n found
    rw [node_numbering] at found
    exact nodeOf_bounds found
  · intro k k' n found found'
    rw [node_numbering] at found found'
    exact nodeOf_apart found found'
  · rw [node_numbering]
    unfold nodeOf
    by_cases mem : Slot.value (.instruction I.id) ∈ slots
    · simp [mem, site.mp mem]
    · simp [mem, Bool.eq_false_iff.mpr fun h => mem (site.mpr h)]

/-- The sets in which the node of one slot holds the nodes of those related to it. -/
def setsOf (A : Collection) (R : Slot → Slot → Prop) (k : NodeIndex) : Set NodeIndex :=
  {b | ∃ s t, A.node s = some k ∧ A.node t = some b ∧ R s t}

/-- No two slots share a node, and the reserved nodes have no slot. -/
structure Apart (A : Collection) : Prop where
  reserved : ∀ k n, A.node k = some n → 4 ≤ n
  inj : ∀ k k' n, A.node k = some n → A.node k' = some n → k = k'

theorem apart_of_numbered {A : Collection} {I : PtrInstruction} (numbered : A.Numbered I) :
    Apart A :=
  ⟨fun k n found => (numbered.handedOut k n found).1, numbered.apart⟩

theorem apart_emplace {A : Collection} (apart : Apart A) (type : ConstraintType)
    (dest src : NodeIndex) : Apart (A.emplace type dest src) := by
  constructor
  · intro k n found
    rw [node_emplace] at found
    exact apart.reserved k n found
  · intro k k' n found found'
    rw [node_emplace] at found found'
    exact apart.inj k k' n found found'

theorem apart_withObject {A : Collection} {I : PtrInstruction} (numbered : A.Numbered I)
    (enough : 4 ≤ A.nodeFactory.numNodes) : Apart (A.withObject I) := by
  have earlier : ∀ k n, (A.withObject I).node k = some n →
      (k = .object (.instruction I.id) ∧ n = A.nodeFactory.numNodes) ∨ A.node k = some n := by
    intro k n found
    by_cases here : k = .object (.instruction I.id)
    · rw [here] at found
      exact .inl ⟨here, Option.some.inj (found.symm.trans (node_allocated A _))⟩
    · exact .inr ((node_allocated_other here).symm.trans found)
  constructor
  · intro k n found
    rcases earlier k n found with ⟨_, rfl⟩ | old
    · exact enough
    · exact (numbered.handedOut k n old).1
  · intro k k' n found found'
    rcases earlier k n found with ⟨rfl, rfl⟩ | old
    · rcases earlier k' _ found' with ⟨rfl, _⟩ | old'
      · rfl
      · exact absurd (numbered.handedOut k' _ old').2 (Nat.lt_irrefl _)
    · rcases earlier k' n found' with ⟨rfl, rfl⟩ | old'
      · exact absurd (numbered.handedOut k _ old).2 (Nat.lt_irrefl _)
      · exact numbered.apart k k' n old old'

theorem mem_setsOf {A : Collection} (apart : Apart A) {R : Slot → Slot → Prop} {s : Slot}
    {k b : NodeIndex} (found : A.node s = some k) :
    b ∈ setsOf A R k ↔ ∃ t, A.node t = some b ∧ R s t := by
  constructor
  · intro ⟨s', t, found', target, related⟩
    exact ⟨t, target, apart.inj s' s k found' found ▸ related⟩
  · intro ⟨t, target, related⟩
    exact ⟨s, t, found, target, related⟩

theorem setsOf_congr {A A' : Collection} (same : A'.node = A.node) (R : Slot → Slot → Prop)
    (k : NodeIndex) : setsOf A' R k = setsOf A R k := by
  unfold setsOf
  rw [same]

theorem setsOf_reserved {A : Collection} (apart : Apart A) (R : Slot → Slot → Prop)
    {k : NodeIndex} (low : k < 4) : setsOf A R k = ∅ := by
  apply Set.eq_empty_of_forall_notMem
  intro b ⟨s, _, found, _, _⟩
  exact Nat.not_lt.mpr (apart.reserved s k found) low

theorem not_pointsTo {A : Collection} (apart : Apart A) {R : Slot → Slot → Prop} {s : Slot}
    {o : MemoryObject} (unrelated : ¬ R s (.object o.site)) :
    ¬ A.PointsTo (setsOf A R) (A.node s) o := by
  intro ⟨k, b, found, target, mem⟩
  obtain ⟨t, target', related⟩ := (mem_setsOf apart found).mp mem
  rw [apart.inj t (.object o.site) b target' target] at related
  exact unrelated related

/-! ### States in which registers hold the addresses of global variables -/

def addressOf (x : GlobalId) : Address := ⟨.global x, 0⟩

def variableSlot (x : GlobalId) : Slot := .object (.globalValue (.globalVariable x))

/-- The variable whose address a register holds, and two variables of which the first
    holds the address of the second. -/
structure Scene where
  args : List PtrValue
  registers : List (Entity × GlobalId) := []
  cell : Option (GlobalId × GlobalId) := none
  saved : Option GlobalId := none

namespace Scene

def held (S : Scene) (e : Entity) : Option GlobalId := (S.registers.find? (·.1 = e)).map Prod.snd

def state (S : Scene) : CallState where
  results i := (S.held (.instruction i)).map addressOf
  args a := (S.held (.argument a)).map addressOf
  memory c := S.cell.bind fun p => if c = addressOf p.1 then some (addressOf p.2) else none
  saved := S.saved.map addressOf

/-- What the solution knows: the state, and `extra`. -/
inductive Known (S : Scene) (extra : Slot → Slot → Prop) : Slot → Slot → Prop
  | address (x : GlobalId) :
      Known S extra (.value (.globalValue (.globalVariable x))) (variableSlot x)
  | register {e : Entity} {x : GlobalId} (mem : (e, x) ∈ S.registers) :
      Known S extra (.value e) (variableSlot x)
  | cell {x y : GlobalId} (holds : S.cell = some (x, y)) :
      Known S extra (variableSlot x) (variableSlot y)
  | extra {s t : Slot} (more : extra s t) : Known S extra s t

def operandSlots : PtrValue → List Slot
  | .constant c => c.entity.toList.flatMap fun e => [.value e, .object e]
  | _ => []

def slots (S : Scene) (I : PtrInstruction) : List Slot :=
  S.args.flatMap operandSlots ++
    S.registers.flatMap (fun p => [.value p.1, variableSlot p.2]) ++
    S.cell.toList.flatMap (fun p => [variableSlot p.1, variableSlot p.2]) ++
    if I.pointerTy then [.value (.instruction I.id)] else []

end Scene

theorem entity_of_constant {c : Constant} {e : Entity} (found : c.entity = some e) :
    ∃ v, e = .globalValue v := by
  induction c using Constant.entity.induct with
  | case1 v => exact ⟨v, (Option.some.inj found).symm⟩
  | case2 base offset ih => exact ih found
  | case3 operand ih => exact ih found
  | _ => simp_all [Constant.entity]

namespace Scene
variable {S : Scene} {I : PtrInstruction} {A : Collection} {extra : Slot → Slot → Prop}

theorem mem_slots {k : Slot} : k ∈ S.slots I ↔
    (∃ v ∈ S.args, k ∈ operandSlots v) ∨
    (∃ p ∈ S.registers, k = .value p.1 ∨ k = variableSlot p.2) ∨
    (∃ p, S.cell = some p ∧ (k = variableSlot p.1 ∨ k = variableSlot p.2)) ∨
    I.pointerTy = true ∧ k = .value (.instruction I.id) := by
  unfold slots
  cases I.pointerTy <;> simp

theorem not_object_of_operand {v : PtrValue} {i : InstId}
    (mem : .object (.instruction i) ∈ operandSlots v ∨ .value (.instruction i) ∈ operandSlots v) :
    False := by
  cases v with
  | constant c =>
    cases found : c.entity with
    | none => simp [operandSlots, found] at mem
    | some e =>
      obtain ⟨g, rfl⟩ := entity_of_constant found
      simp [operandSlots, found] at mem
  | _ => simp [operandSlots] at mem

def Typed (S : Scene) (I : PtrInstruction) : Prop :=
  ∀ x, (.instruction I.id, x) ∈ S.registers → I.pointerTy = true

theorem numbered (typed : S.Typed I) : (numbering (S.slots I)).Numbered I := by
  apply numbered_numbering
  rw [mem_slots]
  constructor
  · rintro (⟨v, _, mem⟩ | ⟨p, mem, same | other⟩ | ⟨p, _, other | other⟩ | ⟨pointer, _⟩)
    · exact (not_object_of_operand (.inr mem)).elim
    · obtain ⟨e, x⟩ := p
      obtain rfl : Entity.instruction I.id = e := by simpa using same
      exact typed x mem
    · simp [variableSlot] at other
    · simp [variableSlot] at other
    · simp [variableSlot] at other
    · exact pointer
  · intro pointer
    exact .inr (.inr (.inr ⟨pointer, rfl⟩))

theorem object_free : Slot.object (.instruction I.id) ∉ (numbering (S.slots I)).taken := by
  intro owned
  obtain ⟨n, found⟩ := taken_iff.mp owned
  rw [node_numbering] at found
  unfold nodeOf at found
  split at found
  · rename_i mem
    rw [mem_slots] at mem
    rcases mem with ⟨v, _, mem⟩ | ⟨p, _, same | other⟩ | ⟨p, _, other | other⟩ | ⟨_, same⟩
    · exact not_object_of_operand (.inl mem)
    · cases same
    · simp [variableSlot] at other
    · simp [variableSlot] at other
    · simp [variableSlot] at other
    · cases same
  · cases found

def Has (S : Scene) (I : PtrInstruction) (A : Collection) : Prop :=
  ∀ k ∈ S.slots I, ∃ n, A.node k = some n

theorem has_numbering : S.Has I (numbering (S.slots I)) := by
  intro k mem
  rw [node_numbering]
  exact ⟨_, if_pos mem⟩

theorem mem_of_held {e : Entity} {x : GlobalId} (found : S.held e = some x) :
    (e, x) ∈ S.registers := by
  obtain ⟨p, isFound, same⟩ := Option.map_eq_some_iff.mp found
  have key : p.1 = e := by simpa using List.find?_some isFound
  rw [← key, ← same]
  exact List.mem_of_find?_eq_some isFound

section Before
variable (has : S.Has I A) {pts : NodeIndex → Set NodeIndex}
  (wider : ∀ k, setsOf A (S.Known extra) k ⊆ pts k)
include has wider

theorem known_pointsTo {s : Slot} {o : MemoryObject} (source : s ∈ S.slots I)
    (target : .object o.site ∈ S.slots I) (known : S.Known extra s (.object o.site)) :
    A.PointsTo pts (A.node s) o := by
  obtain ⟨k, isK⟩ := has s source
  obtain ⟨b, isB⟩ := has _ target
  exact ⟨k, b, isK, isB, wider k ⟨s, _, isK, isB, known⟩⟩

theorem register_pointsTo {e : Entity} {a : Address}
    (held : (S.held e).map addressOf = some a) : A.PointsTo pts (A.node (.value e)) a.object := by
  obtain ⟨x, found, rfl⟩ := Option.map_eq_some_iff.mp held
  have mem := mem_of_held found
  exact known_pointsTo has wider (mem_slots.mpr (.inr (.inl ⟨_, mem, .inl rfl⟩)))
    (mem_slots.mpr (.inr (.inl ⟨_, mem, .inr rfl⟩))) (.register mem)

theorem approximates : A.OverApproximates pts S.args S.state where
  results i a held := register_pointsTo has wider held
  args p a held := register_pointsTo has wider held
  constants c mem a held := by
    obtain ⟨x, found, object⟩ := entity_of_eval held
    have both : ∀ k, k = .value (.globalValue (.globalVariable x)) ∨ k = variableSlot x →
        k ∈ S.slots I := by
      intro k same
      exact mem_slots.mpr (.inl ⟨_, mem, by simpa [operandSlots, found, variableSlot] using same⟩)
    rw [node_of_entity (show (PtrValue.constant c).entity = _ from found), object]
    exact known_pointsTo has wider (both _ (.inl rfl)) (both _ (.inr rfl)) (.address x)
  memory c a held := by
    obtain ⟨p, isCell, held⟩ := Option.bind_eq_some_iff.mp held
    split at held
    · rename_i here
      rw [here, ← Option.some.inj held]
      exact known_pointsTo has wider (mem_slots.mpr (.inr (.inr (.inl ⟨p, isCell, .inl rfl⟩))))
        (mem_slots.mpr (.inr (.inr (.inl ⟨p, isCell, .inr rfl⟩)))) (.cell isCell)
    · cases held

end Before

theorem fresh (S : Scene) (site : InstId) (n : Nat) : S.state.Fresh (.stack site n) where
  results i a held := by
    obtain ⟨x, _, rfl⟩ := Option.map_eq_some_iff.mp held
    nofun
  args p a held := by
    obtain ⟨x, _, rfl⟩ := Option.map_eq_some_iff.mp held
    nofun
  memory c a held := by
    obtain ⟨p, _, held⟩ := Option.bind_eq_some_iff.mp held
    split at held
    · rename_i here
      rw [here, ← Option.some.inj held]
      exact ⟨nofun, nofun⟩
    · cases held
  saved a held := by
    obtain ⟨x, _, rfl⟩ := Option.map_eq_some_iff.mp held
    nofun

end Scene

/-! ### Values that are addresses of variables -/

/-- The value is an address in that variable, in some state. -/
def PtrValue.CanHold (x : GlobalId) : PtrValue → Prop
  | .constant c => ∃ a, c.eval = some a ∧ a.object = .global x
  | .scalar => False
  | _ => True

theorem exists_canHold {v : PtrValue} (holds : v.mayHold = true) : ∃ x, v.CanHold x := by
  cases v with
  | constant c =>
    obtain ⟨a, held⟩ := Option.isSome_iff_exists.mp holds
    obtain ⟨x, _, object⟩ := entity_of_eval held
    exact ⟨x, a, held, object⟩
  | scalar => cases holds
  | _ => exact ⟨0, trivial⟩

theorem canHold_apart {v w : PtrValue} (holds : v.mayHold = true) (holds' : w.mayHold = true)
    (other : v.entity ≠ w.entity) : ∃ x y, x ≠ y ∧ v.CanHold x ∧ w.CanHold y := by
  obtain ⟨x, canV⟩ := exists_canHold holds
  obtain ⟨y, canW⟩ := exists_canHold holds'
  have free : ∀ {u : PtrValue} {z}, u.CanHold z → (∀ c, u ≠ .constant c) →
      ∀ z', u.CanHold z' := by
    intro u z can register z'
    cases u with
    | constant c => exact absurd rfl (register c)
    | scalar => exact can
    | _ => exact trivial
  by_cases same : x = y
  · by_cases constV : ∃ c, v = .constant c
    · by_cases constW : ∃ d, w = .constant d
      · obtain ⟨c, rfl⟩ := constV
        obtain ⟨d, rfl⟩ := constW
        obtain ⟨a, held, object⟩ := canV
        obtain ⟨b, held', object'⟩ := canW
        obtain ⟨g, found, isG⟩ := entity_of_eval held
        obtain ⟨h, found', isH⟩ := entity_of_eval held'
        obtain rfl : g = x := by simpa [isG] using object
        obtain rfl : h = y := by simpa [isH] using object'
        rw [← same] at found'
        exact absurd (found.trans found'.symm) other
      · refine ⟨x, x + 1, (Nat.lt_succ_self x).ne, canV, ?_⟩
        exact free canW (fun d isConst => constW ⟨d, isConst⟩) _
    · refine ⟨y + 1, y, (Nat.lt_succ_self y).ne', ?_, canW⟩
      exact free canV (fun c isConst => constV ⟨c, isConst⟩) _
  · exact ⟨x, y, same, canV, canW⟩

theorem Scene.eval_held {S : Scene} {v : PtrValue} {x : GlobalId} {e : Entity}
    (can : v.CanHold x) (found : v.entity = some e) (held : S.held e = some x) :
    ∃ a, S.state.eval v = some a ∧ a.object = .global x := by
  cases v with
  | instruction i =>
    obtain rfl := Option.some.inj found
    exact ⟨addressOf x, by simp [CallState.eval, Scene.state, held], rfl⟩
  | argument p =>
    obtain rfl := Option.some.inj found
    exact ⟨addressOf x, by simp [CallState.eval, Scene.state, held], rfl⟩
  | constant c => exact can
  | scalar => cases can

/-! ### Solutions for the constraints of one call -/

theorem solves_addrOf {d s : NodeIndex} {pts : NodeIndex → Set NodeIndex} (known : s ∈ pts d) :
    Solves (constraintSystem [⟨.ADDR_OF, d, s⟩]) pts := by
  constructor <;> simp [constraintSystem, known]

theorem solves_copy {d s : NodeIndex} {pts : NodeIndex → Set NodeIndex} (known : pts s ⊆ pts d) :
    Solves (constraintSystem [⟨.COPY, d, s⟩]) pts := by
  constructor <;> simp [constraintSystem, known]

theorem solves_load {d s : NodeIndex} {pts : NodeIndex → Set NodeIndex}
    (known : ∀ o ∈ pts s, pts o ⊆ pts d) : Solves (constraintSystem [⟨.LOAD, d, s⟩]) pts := by
  constructor <;> simp_all [constraintSystem]

theorem solves_append {cs cs' : List AndersConstraint} {pts : NodeIndex → Set NodeIndex}
    (one : Solves (constraintSystem cs) pts) (two : Solves (constraintSystem cs') pts) :
    Solves (constraintSystem (cs ++ cs')) pts where
  addrOf d s mem := (List.mem_append.mp mem).elim (one.addrOf d s) (two.addrOf d s)
  copy d s mem := (List.mem_append.mp mem).elim (one.copy d s) (two.copy d s)
  load d s mem := (List.mem_append.mp mem).elim (one.load d s) (two.load d s)
  store d s mem := (List.mem_append.mp mem).elim (one.store d s) (two.store d s)

theorem solves_store {d s : NodeIndex} {pts : NodeIndex → Set NodeIndex}
    (known : ∀ o ∈ pts d, pts s ⊆ pts o) : Solves (constraintSystem [⟨.STORE, d, s⟩]) pts := by
  constructor <;> simp_all [constraintSystem]

namespace Scene
variable {S : Scene} {I : PtrInstruction} {A B : Collection} {extra : Slot → Slot → Prop}
  {names : FuncId → String} {args : List PtrValue} {f : PtrFunction} {M : PtrModule}

theorem has_mono (has : S.Has I A) (le : A ≤ B) : S.Has I B := by
  intro k mem
  obtain ⟨n, found⟩ := has k mem
  exact ⟨n, node_mono le found⟩

def OwnObject (I : PtrInstruction) (s t : Slot) : Prop :=
  s = .value (.instruction I.id) ∧ t = .object (.instruction I.id)

theorem not_sound (typed : S.Typed I) {A' : Collection}
    (run : (numbering (S.slots I)).addConstraintForExternalLibrary names M I S.args f =
      some (true, A')) (has : S.Has I A') {pts : NodeIndex → Set NodeIndex}
    (wider : ∀ k, setsOf A' (S.Known extra) k ⊆ pts k)
    (solves : Solves (constraintSystem A'.constraints) pts) {summary : Summary}
    {result : Option Address} {memory' : Memory}
    (behaves : Behaves I.id S.state summary result memory')
    (missed : ¬ A'.OverApproximates pts S.args (S.state.after I result memory')) :
    ¬ SummarySound names I S.args f summary := by
  intro sound
  exact missed (sound M _ A' A' (numbered typed) run (le_refl _) pts solves _
    (approximates has wider) result memory' behaves)

theorem allocation (typed : S.Typed I) (pointer : I.pointerTy = true) :
    ∃ A', (numbering (S.slots I)).addAllocation names I S.args = some A' ∧ S.Has I A' ∧
      Apart A' ∧ Solves (constraintSystem A'.constraints) (setsOf A' (S.Known (OwnObject I))) := by
  obtain ⟨r, isRet⟩ := site_node (numbered typed) pointer
  have made := (makes_allocated (object_free (S := S) (I := I))).le
  have object := node_allocated (numbering (S.slots I)) (.object (.instruction I.id))
  refine ⟨_, by rw [addAllocation_eq object_free, isRet], ?_, ?_, ?_⟩
  · exact has_mono has_numbering (made.trans (le_emplace _ _ _))
  · exact apart_emplace (apart_withObject (numbered typed) (Nat.le_add_right 4 _)) _ _ _
  · apply solves_addrOf
    refine ⟨.value (.instruction I.id), .object (.instruction I.id), ?_, ?_, .extra ⟨rfl, rfl⟩⟩
    · rw [node_emplace]
      exact node_mono made isRet
    · rw [node_emplace]
      exact object

theorem returnedNull (typed : S.Typed I) (pointer : I.pointerTy = true) {p : PtrValue}
    (first : S.args[0]? = some p) (null : p.isPointerNull = true) :
    ∃ A', (numbering (S.slots I)).addReturnedArg I S.args 0 = some A' ∧ S.Has I A' ∧
      Apart A' ∧ A'.node (.object (.instruction I.id)) = none ∧
      ∀ extra, Solves (constraintSystem A'.constraints) (setsOf A' (S.Known extra)) := by
  obtain ⟨r, isRet⟩ := site_node (numbered typed) pointer
  have node : (numbering (S.slots I)).getValueNodeFor p = some NullPtrIndex := by
    cases p with
    | constant c => cases c <;> first | rfl | cases null
    | _ => cases null
  have apart := apart_emplace (apart_of_numbered (numbered typed)) .COPY r NullPtrIndex
  refine ⟨_, by rw [addReturnedArg_eq, isRet, first, Option.bind_some, Option.bind_some, node]; rfl,
    has_mono has_numbering (le_emplace _ _ _), apart, ?_, fun extra => ?_⟩
  · rw [node_emplace]
    by_contra found
    exact object_free (taken_iff.mpr (Option.ne_none_iff_exists'.mp found))
  · apply solves_copy
    rw [setsOf_reserved apart _ (by decide)]
    exact Set.empty_subset _

theorem missed_result {pts : NodeIndex → Set NodeIndex} {σ : CallState} {memory' : Memory}
    {a : Address} (pointer : I.pointerTy = true)
    (missed : ¬ A.PointsTo pts (A.node (.value (.instruction I.id))) a.object) :
    ¬ A.OverApproximates pts args (σ.after I (some a) memory') := by
  intro after
  apply missed
  apply after.results I.id a
  simp [CallState.after, pointer]

theorem missed_memory {pts : NodeIndex → Set NodeIndex} {σ : CallState} {memory' : Memory}
    {result : Option Address} {c a : Address} (held : memory' c = some a)
    (missed : ¬ A.PointsTo pts (A.objectNode c.object) a.object) :
    ¬ A.OverApproximates pts args (σ.after I result memory') :=
  fun after => missed (after.memory c a held)

end Scene

/-! ### What the solution of a scene does not know -/

namespace Scene
variable {S : Scene} {extra : Slot → Slot → Prop} {t : Slot}

theorem known_of_object {i : InstId} (known : S.Known extra (.object (.instruction i)) t) :
    extra (.object (.instruction i)) t := by
  generalize source : Slot.object (.instruction i) = s at known
  cases known with
  | extra more => exact more
  | _ => simp [variableSlot] at source

theorem known_of_call {i : InstId} (known : S.Known extra (.value (.instruction i)) t) :
    (∃ x, (.instruction i, x) ∈ S.registers ∧ t = variableSlot x) ∨
      extra (.value (.instruction i)) t := by
  generalize source : Slot.value (.instruction i) = s at known
  cases known with
  | @register e x mem =>
    obtain rfl : Entity.instruction i = e := by simpa using source
    exact .inl ⟨x, mem, rfl⟩
  | extra more => exact .inr more
  | _ => simp [variableSlot] at source

theorem known_of_variable {x : GlobalId} (known : S.Known extra (variableSlot x) t) :
    (∃ y, S.cell = some (x, y) ∧ t = variableSlot y) ∨ extra (variableSlot x) t := by
  generalize source : variableSlot x = s at known
  cases known with
  | @cell x' y holds =>
    obtain rfl : x = x' := by simpa [variableSlot] using source
    exact .inl ⟨y, holds, rfl⟩
  | extra more => exact .inr more
  | _ => simp [variableSlot] at source

theorem known_of_held {v : PtrValue} {e : Entity} {x : GlobalId} (can : v.CanHold x)
    (found : v.entity = some e) (only : ∀ z, (e, z) ∈ S.registers → z = x)
    (known : S.Known extra (.value e) t) : t = variableSlot x ∨ extra (.value e) t := by
  generalize source : Slot.value e = s at known
  cases known with
  | address z =>
    obtain rfl : e = .globalValue (.globalVariable z) := by simpa using source
    cases v with
    | constant c =>
      obtain ⟨a, held, object⟩ := can
      obtain ⟨g, isG, inG⟩ := entity_of_eval held
      obtain rfl : g = z := by simpa using isG.symm.trans found
      obtain rfl : g = x := by simpa [inG] using object
      exact .inl rfl
    | scalar => cases can
    | _ => cases found
  | @register e' z mem =>
    obtain rfl : e = e' := by simpa using source
    exact .inl (by rw [only z mem])
  | cell => simp [variableSlot] at source
  | extra more => exact .inr more

end Scene

structure TwoHeld (S : Scene) (I : PtrInstruction) (v w : PtrValue) (x y : GlobalId)
    (e e' : Entity) : Prop where
  apart : x ≠ y
  nodes : e ≠ e'
  registers : S.registers = [(e, x), (e', y)]
  canV : v.CanHold x
  foundV : v.entity = some e
  canW : w.CanHold y
  foundW : w.entity = some e'
  typed : S.Typed I

namespace TwoHeld
variable {S : Scene} {I : PtrInstruction} {v w : PtrValue} {x y : GlobalId} {e e' : Entity}
  {extra : Slot → Slot → Prop} {t : Slot}

theorem exists_scene (args : List PtrValue) (holds : v.mayHold = true) (holds' : w.mayHold = true)
    (other : v.entity ≠ w.entity)
    (typed : v.entity = some (.instruction I.id) ∨ w.entity = some (.instruction I.id) →
      I.pointerTy = true) : ∃ x y e e', ∀ cell,
      TwoHeld { args, registers := [(e, x), (e', y)], cell } I v w x y e e' := by
  obtain ⟨x, y, apart, canV, canW⟩ := canHold_apart holds holds' other
  obtain ⟨e, foundV⟩ := entity_of_mayHold holds
  obtain ⟨e', foundW⟩ := entity_of_mayHold holds'
  refine ⟨x, y, e, e', fun cell => ⟨apart, fun same => ?_, rfl, canV, foundV, canW, foundW, ?_⟩⟩
  · rw [foundV, foundW, same] at other
    exact other rfl
  · intro z mem
    rcases List.mem_cons.mp mem with same | mem
    · exact typed (.inl (foundV.trans (congrArg some (Prod.mk.inj same).1.symm)))
    · have same := List.mem_singleton.mp mem
      exact typed (.inr (foundW.trans (congrArg some (Prod.mk.inj same).1.symm)))

variable (two : TwoHeld S I v w x y e e')
include two

theorem eval_first : ∃ a, S.state.eval v = some a ∧ a.object = .global x :=
  Scene.eval_held two.canV two.foundV (by simp [Scene.held, two.registers])

theorem eval_second : ∃ a, S.state.eval w = some a ∧ a.object = .global y :=
  Scene.eval_held two.canW two.foundW (by simp [Scene.held, two.registers, two.nodes])

theorem known_first (known : S.Known extra (.value e) t) :
    t = variableSlot x ∨ extra (.value e) t := by
  apply Scene.known_of_held two.canV two.foundV _ known
  intro z mem
  have other := two.nodes
  simp only [two.registers, List.mem_cons, Prod.mk.injEq, List.not_mem_nil, or_false] at mem
  rcases mem with ⟨_, rfl⟩ | ⟨same, _⟩
  · rfl
  · exact absurd same other

theorem known_second (known : S.Known extra (.value e') t) :
    t = variableSlot y ∨ extra (.value e') t := by
  apply Scene.known_of_held two.canW two.foundW _ known
  intro z mem
  have other := two.nodes
  simp only [two.registers, List.mem_cons, Prod.mk.injEq, List.not_mem_nil, or_false] at mem
  rcases mem with ⟨same, _⟩ | ⟨_, rfl⟩
  · exact absurd same.symm other
  · rfl

theorem first_node : ∃ k, (numbering (S.slots I)).getValueNodeFor v = some k ∧
    (numbering (S.slots I)).node (.value e) = some k := by
  obtain ⟨k, isK⟩ := Scene.has_numbering (S := S) (I := I) (.value e)
    (Scene.mem_slots.mpr (.inr (.inl ⟨(e, x), by simp [two.registers], .inl rfl⟩)))
  exact ⟨k, (node_of_entity two.foundV _).trans isK, isK⟩

theorem second_node : ∃ k, (numbering (S.slots I)).getValueNodeFor w = some k ∧
    (numbering (S.slots I)).node (.value e') = some k := by
  obtain ⟨k, isK⟩ := Scene.has_numbering (S := S) (I := I) (.value e')
    (Scene.mem_slots.mpr (.inr (.inl ⟨(e', y), by simp [two.registers], .inl rfl⟩)))
  exact ⟨k, (node_of_entity two.foundW _).trans isK, isK⟩

end TwoHeld

/-! ### The summaries that leave something out -/

section Missed
variable {names : FuncId → String} {I : PtrInstruction} {args : List PtrValue} {f : PtrFunction}
  (M : PtrModule) (external : f.isExternal = true)
include M external

section Realloc
variable (listed : names f.id ∈ reallocFuncs) (pointer : I.pointerTy = true) {p : PtrValue}
  (first : args[0]? = some p)
include listed pointer first

theorem null_missed (null : p.isPointerNull = true) {summary : Summary} (saved : Option GlobalId)
    {a : Address} {memory' : Memory}
    (behaves : Behaves I.id (Scene.state { args, saved }) summary (some a) memory') :
    ¬ SummarySound names I args f summary := by
  let S : Scene := { args, saved }
  have typed : S.Typed I := fun x mem => nomatch mem
  obtain ⟨A', run, has, apart, _, solves⟩ := Scene.returnedNull typed pointer first null
  have handled := (dispatch_realloc (M := M) listed first).mpr
    ⟨external, by rw [null]; exact run⟩
  have unknown : ¬ S.Known (fun _ _ => False) (.value (.instruction I.id))
      (.object a.object.site) := by
    intro known
    rcases Scene.known_of_call known with ⟨_, mem, _⟩ | none
    · cases mem
    · exact none
  exact Scene.not_sound typed handled has (fun _ => Set.Subset.rfl) (solves _) behaves
    (Scene.missed_result pointer (not_pointsTo apart unknown))

theorem result_missed (null : p.isPointerNull = false) (S : Scene) (same : S.args = args)
    {summary : Summary} {a : Address} {x : GlobalId} {memory' : Memory}
    (behaves : Behaves I.id S.state summary (some a) memory') (object : a.object = .global x)
    (other : ∀ y, (.instruction I.id, y) ∉ S.registers) :
    ¬ SummarySound names I args f summary := by
  subst same
  have typed : S.Typed I := fun _ _ => pointer
  obtain ⟨A', run, has, apart, solves⟩ := @Scene.allocation S I names typed pointer
  have handled := (dispatch_realloc (M := M) listed first).mpr
    ⟨external, by rw [null]; exact run⟩
  refine Scene.not_sound typed handled has (fun _ => Set.Subset.rfl) solves behaves
    (Scene.missed_result pointer (not_pointsTo apart fun known => ?_))
  rcases Scene.known_of_call known with ⟨y, mem, _⟩ | ⟨_, own⟩
  · exact other y mem
  · rw [object] at own
    simp [MemoryObject.site] at own

theorem reallocate_missed (bad : ¬ (p.isPointerNull = false ∧ p.mayHold = false)) :
    ¬ SummarySound names I args f (.reallocate p) := by
  cases null : p.isPointerNull with
  | true =>
    exact null_missed M external listed pointer first null none
      (.reallocate (Scene.fresh _ I.id 0) fun c a held => .inl held)
  | false =>
    have holds : p.mayHold = true := by simpa [null] using bad
    obtain ⟨x, can⟩ := exists_canHold holds
    obtain ⟨e, found⟩ := entity_of_mayHold holds
    let S : Scene := { args, registers := [(e, x)], cell := some (x, x) }
    have typed : S.Typed I := fun _ _ => pointer
    obtain ⟨A', run, has, apart, solves⟩ := @Scene.allocation S I names typed pointer
    have handled := (dispatch_realloc (M := M) listed first).mpr
      ⟨external, by rw [null]; exact run⟩
    obtain ⟨a, held, object⟩ := Scene.eval_held (S := S) can found (by simp [S, Scene.held])
    -- the new object holds what the old one held
    let memory' := Function.update S.state.memory ⟨.stack I.id 0, 0⟩ (some (addressOf x))
    have copied : Copied S.state.memory memory' (.stack I.id 0) (S.state.eval p) := by
      intro c b kept
      by_cases here : c = ⟨.stack I.id 0, 0⟩
      · simp only [memory', here, Function.update_self] at kept
        refine .inr ⟨by rw [here], a, 0, held, ?_⟩
        rw [object, ← kept]
        simp [S, Scene.state, addressOf]
      · simp only [memory', Function.update_of_ne here] at kept
        exact .inl kept
    refine Scene.not_sound typed handled has (fun _ => Set.Subset.rfl) solves
      (.reallocate (S.fresh I.id 0) copied)
      (Scene.missed_memory (Function.update_self ..) (not_pointsTo apart fun known => ?_))
    have own := Scene.known_of_object known
    cases own.1

theorem token_missed : ¬ SummarySound names I args f (.token p) := by
  cases null : p.isPointerNull with
  | true =>
    exact null_missed M external listed pointer first null (some 0)
      (.token (by rw [eval_of_null null]; rfl) rfl fun c a held => held)
  | false =>
    -- a constant is scanned itself, and where there is none the string of an earlier call
    let S : Scene := { args, saved := some 0 }
    have scanned : ∃ t x, (S.state.eval p).or S.state.saved = some t ∧ t.object = .global x := by
      cases held : S.state.eval p with
      | none => exact ⟨addressOf 0, 0, rfl, rfl⟩
      | some a =>
        cases p with
        | constant c =>
          obtain ⟨x, _, object⟩ := entity_of_eval held
          exact ⟨a, x, rfl, object⟩
        | _ => cases held
    obtain ⟨t, x, here, object⟩ := scanned
    exact result_missed M external listed pointer first null S rfl
      (.token here rfl fun c a held => held) object (fun _ mem => nomatch mem)

theorem workingDirectory_missed (bad : ¬ (p.isPointerNull = false ∧
      (p.mayHold = false ∨ p.entity = some (.instruction I.id)))) :
    ¬ SummarySound names I args f (.workingDirectory p) := by
  cases null : p.isPointerNull with
  | true =>
    exact null_missed M external listed pointer first null none
      (.directoryAllocated (eval_of_null null _) (Scene.fresh _ I.id 0))
  | false =>
    have both : p.mayHold = true ∧ p.entity ≠ some (.instruction I.id) := by
      simpa [null, not_or] using bad
    obtain ⟨x, can⟩ := exists_canHold both.1
    obtain ⟨e, found⟩ := entity_of_mayHold both.1
    let S : Scene := { args, registers := [(e, x)] }
    obtain ⟨a, held, object⟩ := Scene.eval_held (S := S) can found (by simp [S, Scene.held])
    refine result_missed M external listed pointer first null S rfl
      (.directory held fun c a kept => kept) object (fun y mem => ?_)
    simp only [S, List.mem_singleton, Prod.mk.injEq] at mem
    exact both.2 (found.trans (congrArg some mem.1.symm))

end Realloc

theorem memalign_missed (named : names f.id = "posix_memalign")
    (direct : I.pointerTy = false → calledName names I = some "posix_memalign") {pp : PtrValue}
    (first : args[0]? = some pp) (holds : pp.mayHold = true)
    (typed : pp.entity = some (.instruction I.id) → I.pointerTy = true) :
    ¬ SummarySound names I args f (.memalign pp) := by
  obtain ⟨x, can⟩ := exists_canHold holds
  obtain ⟨e, found⟩ := entity_of_mayHold holds
  let S : Scene := { args, registers := [(e, x)] }
  have typed : S.Typed I := by
    intro y mem
    simp only [S, List.mem_singleton, Prod.mk.injEq] at mem
    exact typed (found.trans (congrArg some mem.1.symm))
  have listed : names f.id ∈ mallocFuncs := by rw [named]; decide
  obtain ⟨a, held, object⟩ := Scene.eval_held (S := S) can found (by simp [S, Scene.held])
  have stored : Stored S.state.memory
      (Function.update S.state.memory a (some ⟨.stack I.id 0, 0⟩)) a (some ⟨.stack I.id 0, 0⟩) :=
    ⟨Function.update_self .., fun b other => .inl (Function.update_of_ne other _ _)⟩
  have handled : ∃ A', (numbering (S.slots I)).addAllocation names I args = some A' ∧
      S.Has I A' ∧ Apart A' ∧
      Solves (constraintSystem A'.constraints) (setsOf A' (S.Known (Scene.OwnObject I))) := by
    cases pointer : I.pointerTy with
    | true => exact Scene.allocation typed pointer
    | false =>
      have noNode : (numbering (S.slots I)).getValueNodeFor (.instruction I.id) = none :=
        Option.isNone_iff_eq_none.mp
          (Option.isSome_eq_false_iff.mp ((Scene.numbered typed).site.trans pointer))
      obtain ⟨k, isK⟩ := Scene.has_numbering (S := S) (I := I) (.value e)
        (Scene.mem_slots.mpr (.inr (.inl ⟨(e, x), List.mem_singleton_self _, .inl rfl⟩)))
      have made := (makes_allocated (Scene.object_free (S := S) (I := I))).le
      have apart := apart_withObject (Scene.numbered typed) (Nat.le_add_right 4 _)
      refine ⟨_, by
        rw [addAllocation_eq Scene.object_free, noNode, first]
        simp only [direct pointer, if_true, Option.bind_some, node_of_entity found, isK]
        rfl, Scene.has_mono Scene.has_numbering (made.trans (le_emplace _ _ _)),
        apart_emplace apart _ _ _, solves_store fun o _ b mem => ?_⟩
      obtain ⟨s, t, isS, _, known⟩ := mem
      rw [node_emplace] at isS
      obtain rfl := apart.inj s _ _ isS (node_allocated _ (.object (.instruction I.id)))
      cases (Scene.known_of_object known).1
  obtain ⟨A', run, has, apart, solves⟩ := handled
  refine Scene.not_sound typed ((dispatch_malloc (M := M) listed).mpr ⟨external, run⟩) has
    (fun _ => Set.Subset.rfl) solves (.memalign held (S.fresh I.id 0) stored)
    (Scene.missed_memory stored.here ?_)
  rw [object]
  refine not_pointsTo apart (s := variableSlot x) fun known => ?_
  rcases Scene.known_of_variable known with ⟨y, none, _⟩ | own
  · cases none
  · cases own.1

theorem convert_missed (listed : names f.id ∈ convertFuncs) (kept : names f.id ∉ noopFuncs)
    {s endp : PtrValue} (first : args[0]? = some s) (second : args[1]? = some endp)
    (holds : s.mayHold = true) (holds' : endp.mayHold = true) (other : s.entity ≠ endp.entity)
    (typed : s.entity = some (.instruction I.id) ∨ endp.entity = some (.instruction I.id) →
      I.pointerTy = true) : ¬ SummarySound names I args f (.convert s endp) := by
  obtain ⟨x, y, e, e', two⟩ := TwoHeld.exists_scene args holds holds' other typed
  let S : Scene := { args, registers := [(e, x), (e', y)], cell := some (x, y) }
  have two : TwoHeld S I s endp x y e e' := two (some (x, y))
  obtain ⟨a, text, inText⟩ := two.eval_first
  obtain ⟨b, pointer, inEnd⟩ := two.eval_second
  obtain ⟨k, nodeText, isText⟩ := two.first_node
  obtain ⟨l, nodeEnd, isEnd⟩ := two.second_node
  have apart := apart_emplace (apart_of_numbered (Scene.numbered two.typed)) .STORE k l
  have stored : Stored S.state.memory (Function.update S.state.memory b (some a)) b (some a) :=
    ⟨Function.update_self .., fun c other => .inl (Function.update_of_ne other _ _)⟩
  have run : (numbering (S.slots I)).addConversion S.args =
      some ((numbering (S.slots I)).emplace .STORE k l) := by
    rw [addConversion_eq, first, second]
    simp [notNull_of_eval pointer, nodeText, nodeEnd]
  -- what the text holds is made to hold the second pointer, and not the other way round
  have solves : Solves (constraintSystem [⟨.STORE, k, l⟩])
      (setsOf ((numbering (S.slots I)).emplace .STORE k l) (S.Known fun _ _ => False)) := by
    apply solves_store
    intro o mem b' mem'
    rw [mem_setsOf apart (s := .value e) (by rw [node_emplace]; exact isText)] at mem
    rw [mem_setsOf apart (s := .value e') (by rw [node_emplace]; exact isEnd)] at mem'
    obtain ⟨t, isO, known⟩ := mem
    obtain ⟨t', isB, known'⟩ := mem'
    obtain rfl := (two.known_first known).resolve_right id
    obtain rfl := (two.known_second known').resolve_right id
    exact ⟨_, _, isO, isB, .cell rfl⟩
  refine Scene.not_sound two.typed ((dispatch_convert (M := M) listed kept).mpr ⟨external, run⟩)
    (Scene.has_mono Scene.has_numbering (le_emplace _ _ _)) (fun _ => Set.Subset.rfl) solves
    (.convert text pointer rfl stored) (Scene.missed_memory stored.here ?_)
  rw [inEnd, inText]
  refine not_pointsTo apart (s := variableSlot y) fun known => ?_
  rcases Scene.known_of_variable known with ⟨z, isCell, _⟩ | none
  · exact two.apart (by simpa [S] using (Prod.mk.inj (Option.some.inj isCell)).1)
  · exact none

/-- What the first pointer's object holds is also known of the temporary and of a result. -/
def CopiedBack (I : PtrInstruction) (x : GlobalId) (s t : Slot) : Prop :=
  s = .value (.instruction I.id) ∧ t = variableSlot x

theorem bcopy_missed (named : names f.id = "bcopy") {src dest : PtrValue}
    (first : args[0]? = some src) (second : args[1]? = some dest) (holds : src.mayHold = true)
    (holds' : dest.mayHold = true) (other : src.entity ≠ dest.entity)
    (typed : src.entity = some (.instruction I.id) ∨ dest.entity = some (.instruction I.id) →
      I.pointerTy = true) : ¬ SummarySound names I args f (.bcopy src dest) := by
  have listed : names f.id ∈ memcpyFuncs := by rw [named]; decide
  obtain ⟨x, y, e, e', two⟩ := TwoHeld.exists_scene args holds holds' other typed
  let S : Scene := { args, registers := [(e, x), (e', y)], cell := some (x, x) }
  have two : TwoHeld S I src dest x y e e' := two (some (x, x))
  obtain ⟨a, source, inSrc⟩ := two.eval_first
  obtain ⟨b, target, inDest⟩ := two.eval_second
  obtain ⟨k, nodeSrc, isSrc⟩ := two.first_node
  obtain ⟨l, nodeDest, isDest⟩ := two.second_node
  let N := numbering (S.slots I)
  have apart : Apart N := apart_of_numbered (Scene.numbered two.typed)
  have notTemp : ∀ {s n}, N.node s = some n → n ≠ N.nodeFactory.numNodes := fun found =>
    Nat.ne_of_lt ((Scene.numbered two.typed).handedOut _ _ found).2
  let pts : NodeIndex → Set NodeIndex := fun n =>
    setsOf N (S.Known (CopiedBack I x)) n ∪
      {o | n = N.nodeFactory.numNodes ∧ N.node (variableSlot x) = some o}
  have mem_pts : ∀ {s n o}, N.node s = some n →
      (o ∈ pts n ↔ ∃ t, N.node t = some o ∧ S.Known (CopiedBack I x) s t) := by
    intro s n o found
    have none : ¬ (n = N.nodeFactory.numNodes ∧ N.node (variableSlot x) = some o) :=
      fun same => notTemp found same.1
    rw [← mem_setsOf apart found]
    simp [pts, none]
  have onlyTemp : ∀ o ∈ pts N.nodeFactory.numNodes, N.node (variableSlot x) = some o := by
    rintro o (⟨s, _, found, _, _⟩ | ⟨_, found⟩)
    · exact absurd rfl (notTemp found)
    · exact found
  have ofSrc : ∀ t, S.Known (CopiedBack I x) (.value e) t → t = variableSlot x := by
    intro t known
    rcases two.known_first known with same | ⟨_, same⟩
    · exact same
    · exact same
  have load : Solves (constraintSystem [⟨.LOAD, N.nodeFactory.numNodes, l⟩]) pts := by
    apply solves_load
    intro o mem o' mem'
    obtain ⟨t, isO, known⟩ := (mem_pts isDest).mp mem
    have inVariable : ∃ z, t = variableSlot z := by
      rcases two.known_second known with same | ⟨_, same⟩
      · exact ⟨y, same⟩
      · exact ⟨x, same⟩
    obtain ⟨z, rfl⟩ := inVariable
    obtain ⟨t', isO', known'⟩ := (mem_pts isO).mp mem'
    rcases Scene.known_of_variable known' with ⟨z', isCell, rfl⟩ | ⟨notValue, _⟩
    · obtain rfl : x = z' := (Prod.mk.inj (Option.some.inj isCell)).2
      exact .inr ⟨rfl, isO'⟩
    · cases notValue
  have store : Solves (constraintSystem [⟨.STORE, k, N.nodeFactory.numNodes⟩]) pts := by
    apply solves_store
    intro o mem o' mem'
    obtain ⟨t, isO, known⟩ := (mem_pts isSrc).mp mem
    obtain rfl := ofSrc t known
    exact (mem_pts isO).mpr ⟨_, onlyTemp o' mem', .cell rfl⟩
  have copied : Copied S.state.memory
      (Function.update S.state.memory b (some (addressOf x))) b.object (S.state.eval src) := by
    intro c o held
    by_cases here : c = b
    · rw [here, Function.update_self] at held
      refine .inr ⟨by rw [here], a, 0, source, ?_⟩
      rw [inSrc, ← held]
      simp [S, Scene.state, addressOf]
    · rw [Function.update_of_ne here] at held
      exact .inl held
  have run : N.addMemcpy I S.args = some (N.withCopy I k l) := by
    rw [addMemcpy_eq, first, second, Option.bind_some, Option.bind_some, nodeSrc, nodeDest]
    rfl
  have solves : Solves (constraintSystem (N.withCopy I k l).constraints) pts := by
    have transfer := solves_append load store
    unfold withCopy
    cases isRet : N.getValueNodeFor (.instruction I.id) with
    | none => exact transfer
    | some r =>
      refine solves_append transfer (solves_copy fun o mem => ?_)
      obtain ⟨t, isO, known⟩ := (mem_pts isSrc).mp mem
      exact (mem_pts (s := .value (.instruction I.id)) isRet).mpr
        ⟨t, isO, .extra ⟨rfl, ofSrc t known⟩⟩
  have same : (N.withCopy I k l).node = N.node := node_withCopy k l
  refine Scene.not_sound two.typed ((dispatch_memcpy (M := M) listed).mpr ⟨external, run⟩)
    (Scene.has_mono Scene.has_numbering ((le_withTransfer k l).trans (le_withCopy k l)))
    (fun n => (setsOf_congr same (S.Known (CopiedBack I x)) n).subset.trans Set.subset_union_left)
    solves (.bcopy target copied) (Scene.missed_memory (Function.update_self ..) ?_)
  rw [inDest]
  intro ⟨n, o, isN, isO, mem⟩
  have isN : N.node (variableSlot y) = some n := same ▸ isN
  have isO : N.node (variableSlot x) = some o := same ▸ isO
  obtain ⟨t, isT, known⟩ := (mem_pts isN).mp mem
  obtain rfl := apart.inj t (variableSlot x) o isT isO
  rcases Scene.known_of_variable known with ⟨z, isCell, _⟩ | ⟨notValue, _⟩
  · exact two.apart (Prod.mk.inj (Option.some.inj isCell)).1
  · cases notValue

end Missed

section Handled
variable {names : FuncId → String} {I : PtrInstruction} {args : List PtrValue} {f : PtrFunction}
  {A A' : Collection}

def Calls (I : PtrInstruction) (f : PtrFunction) (args : List PtrValue) : Prop :=
  I.op = .call (.direct f.id) args ∨ ∃ v, I.op = .call (.indirect v) args

theorem name_of_called (call : Calls I f args) {name : String}
    (called : calledName names I = some name) : names f.id = name := by
  unfold calledName at called
  rcases call with direct | ⟨v, indirect⟩
  · rw [direct] at called
    exact Option.some.inj called
  · rw [indirect] at called
    cases called

theorem typed_of_node (numbered : A.Numbered I) {v : PtrValue} {k : NodeIndex}
    (found : A.getValueNodeFor v = some k) (own : v.entity = some (.instruction I.id)) :
    I.pointerTy = true := by
  rw [node_of_entity own] at found
  rw [← numbered.site, found]
  rfl

theorem typed_of_realloc (numbered : A.Numbered I) (call : Calls I f args)
    (listed : names f.id ∈ reallocFuncs) {p : PtrValue}
    (run : (if p.isPointerNull then A.addReturnedArg I args 0 else A.addAllocation names I args) =
      some A') : I.pointerTy = true := by
  cases isRet : A.getValueNodeFor (.instruction I.id) with
  | some r => exact typed_of_node numbered isRet rfl
  | none =>
    split at run
    · rw [addReturnedArg_eq, isRet] at run
      cases run
    · rw [addAllocation_eq (free_of_addAllocation run), isRet] at run
      simp only at run
      split at run
      · rename_i called
        rw [name_of_called call called] at listed
        simp [reallocFuncs] at listed
      · cases run

end Handled

/-- The summary of a handled call is sound exactly if it is one of those that account for
    the call. -/
theorem summarySound_iff {names : FuncId → String} {I : PtrInstruction} {args : List PtrValue}
    {f : PtrFunction} {S : Summary} (describes : Describes (names f.id) args S)
    (call : Calls I f args) (handled : ∃ M A A', Collection.Numbered A I ∧
      A.addConstraintForExternalLibrary names M I args f = some (true, A')) :
    SummarySound names I args f S ↔ S.Accounted I.id := by
  refine ⟨fun sound => ?_, accounted_sound describes⟩
  obtain ⟨M, A, A', numbered, run⟩ := handled
  by_contra bad
  revert sound
  cases describes with
  | allocate => exact absurd trivial bad
  | @memalign pp named first =>
    have listed : names f.id ∈ mallocFuncs := by rw [named]; decide
    obtain ⟨external, run⟩ := (dispatch_malloc listed).mp run
    rw [addAllocation_eq (free_of_addAllocation run)] at run
    have direct : I.pointerTy = false → calledName names I = some "posix_memalign" ∧
        ∃ k, A.getValueNodeFor pp = some k := by
      intro pointer
      have noNode : A.getValueNodeFor (.instruction I.id) = none :=
        Option.isNone_iff_eq_none.mp
          (Option.isSome_eq_false_iff.mp (numbered.site.trans pointer))
      rw [noNode, first] at run
      simp only [Option.bind_some] at run
      split at run
      · rename_i called
        obtain ⟨k, found, _⟩ := Option.map_eq_some_iff.mp run
        exact ⟨called, k, found⟩
      · cases run
    refine memalign_missed M external named (fun pointer => (direct pointer).1) first
      (by simpa [Summary.Accounted] using bad) (fun own => ?_)
    by_contra scalar
    obtain ⟨_, k, found⟩ := direct (by simpa using scalar)
    exact scalar (typed_of_node numbered found own)
  | @reallocate p named first =>
    have listed : names f.id ∈ reallocFuncs := by rw [named]; decide
    obtain ⟨external, run⟩ := (dispatch_realloc listed first).mp run
    exact reallocate_missed M external listed (typed_of_realloc numbered call listed run) first bad
  | @token p named first =>
    have listed : names f.id ∈ reallocFuncs := by rcases named with h | h <;> rw [h] <;> decide
    obtain ⟨external, run⟩ := (dispatch_realloc listed first).mp run
    exact token_missed M external listed (typed_of_realloc numbered call listed run) first
  | @workingDirectory p named first =>
    have listed : names f.id ∈ reallocFuncs := by rw [named]; decide
    obtain ⟨external, run⟩ := (dispatch_realloc listed first).mp run
    exact workingDirectory_missed M external listed (typed_of_realloc numbered call listed run)
      first bad
  | move => exact absurd trivial bad
  | @bcopy src dest named first second =>
    have listed : names f.id ∈ memcpyFuncs := by rw [named]; decide
    obtain ⟨external, run⟩ := (dispatch_memcpy listed).mp run
    rw [addMemcpy_eq, first, second] at run
    obtain ⟨k, isSrc, run⟩ := Option.bind_eq_some_iff.mp run
    obtain ⟨l, isDest, _⟩ := Option.map_eq_some_iff.mp run
    simp only [Summary.Accounted, not_or, Bool.not_eq_false] at bad
    refine bcopy_missed M external named first second bad.1 bad.2.1 bad.2.2 ?_
    rintro (own | own)
    · exact typed_of_node numbered isSrc own
    · exact typed_of_node numbered isDest own
  | @convert s endp listed kept first second =>
    obtain ⟨external, run⟩ := (dispatch_convert listed kept).mp run
    simp only [Summary.Accounted, not_or, Bool.not_eq_false] at bad
    have notNull : endp.isPointerNull = false := by
      by_contra null
      have never := bad.2.1
      cases endp with
      | constant c => cases c <;> first | cases never | exact null rfl
      | _ => exact null rfl
    rw [addConversion_eq, first, second] at run
    simp only [Option.bind_some, notNull, Bool.false_eq_true, if_false] at run
    obtain ⟨k, isText, run⟩ := Option.bind_eq_some_iff.mp run
    obtain ⟨l, isEnd, _⟩ := Option.map_eq_some_iff.mp run
    refine convert_missed M external listed kept first second bad.1 bad.2.1 bad.2.2 ?_
    rintro (own | own)
    · exact typed_of_node numbered isText own
    · exact typed_of_node numbered isEnd own

def aligned : PtrModule where
  globals := []
  functions := [
    ⟨0, [], false, false, false, [⟨0, [⟨0, true, .call (.direct 1) [.scalar]⟩,
      ⟨1, false, .call (.direct 2) [.instruction 0, .scalar, .scalar]⟩, ⟨2, false, .ret none⟩]⟩]⟩,
    ⟨1, [⟨0, false⟩], true, false, false, []⟩,
    ⟨2, [⟨1, true⟩, ⟨2, false⟩, ⟨3, false⟩], false, false, false, []⟩]
  global_nodup := by decide
  func_nodup := by decide
  inst_nodup := by decide
  arg_nodup := by decide

def alignedNames : FuncId → String
  | 0 => "main"
  | 1 => "malloc"
  | _ => "posix_memalign"

theorem aligned_allocated :
    SummarySound alignedNames ⟨0, true, .call (.direct 1) [.scalar]⟩ [.scalar]
      aligned.functions[1] .allocate := by
  let I : PtrInstruction := ⟨0, true, .call (.direct 1) [.scalar]⟩
  have numbered : (numbering [.value (.instruction 0)]).Numbered I :=
    numbered_numbering (by simp [I])
  refine (summarySound_iff (.allocate ?_ ?_) (.inl rfl) ⟨aligned, _, _, numbered, rfl⟩).mpr trivial
  · decide
  · decide

theorem aligned_collected :
    (collectConstraints (addConstraintForExternalLibrary alignedNames aligned) aligned).map
      (fun A => (A.constraints, A.objectNode (.stack 0 0), A.getValueNodeFor (.instruction 0))) =
      some ([⟨.ADDR_OF, 0, 1⟩, ⟨.STORE, 1, 1⟩, ⟨.ADDR_OF, 2, 3⟩, ⟨.ADDR_OF, 4, 5⟩,
        ⟨.STORE, 4, 6⟩], some 5, some 4) := by
  decide +kernel

/-- The cell holds the address of the new object, but of the cell nothing is known. -/
theorem aligned_missed :
    let I : PtrInstruction := ⟨1, false, .call (.direct 2) [.instruction 0, .scalar, .scalar]⟩
    let args : List PtrValue := [.instruction 0, .scalar, .scalar]
    Calls I aligned.functions[2] args ∧
    Describes (alignedNames 2) args (.memalign (.instruction 0)) ∧
    ∃ B, collectConstraints (addConstraintForExternalLibrary alignedNames aligned) aligned =
        some B ∧
      let pts := solution (constraintSystem B.constraints)
      ∃ σ result memory', B.OverApproximates pts args σ ∧
        Behaves I.id σ (.memalign (.instruction 0)) result memory' ∧
        ¬ B.OverApproximates pts args (σ.after I result memory') := by
  intro I args
  refine ⟨.inl rfl, .memalign rfl rfl, ?_⟩
  obtain ⟨B, run, facts⟩ := Option.map_eq_some_iff.mp aligned_collected
  simp only [Prod.mk.injEq] at facts
  obtain ⟨constraints, cell, value⟩ := facts
  let e : Address := ⟨.stack 0 0, 0⟩
  let new : Address := ⟨.stack 1 0, 0⟩
  let σ : CallState :=
    { results := fun i => if i = 0 then some e else none
      args := fun _ => none
      memory := fun _ => none
      saved := none }
  let memory' : Memory := Function.update σ.memory e (some new)
  have fresh : σ.Fresh (.stack 1 0) := by
    refine ⟨fun i a known => ?_, nofun, nofun, nofun⟩
    simp only [σ] at known
    split at known
    · rw [← Option.some.inj known]
      decide
    · cases known
  have stored : Stored σ.memory memory' e (some new) :=
    ⟨Function.update_self .., fun c other => .inl (Function.update_of_ne other _ _)⟩
  refine ⟨B, run, σ, none, memory', ⟨?_, nofun, ?_, nofun⟩, .memalign rfl fresh stored, ?_⟩
  · intro i a known
    simp only [σ] at known
    split at known
    · rename_i here
      rw [here, ← Option.some.inj known]
      refine ⟨4, 5, value, cell, ?_⟩
      rw [constraints]
      exact .addrOf (by simp [constraintSystem])
    · cases known
  · intro c mem
    simp [args] at mem
  · intro known
    obtain ⟨k, b, isK, isB, derived⟩ := known.memory e new stored.here
    obtain rfl := Option.some.inj (cell.symm.trans isK)
    rw [constraints] at derived
    -- each of the three pointers has one target
    have least := @solution_le_targetSets _ [(0, 1), (2, 3), (4, 5)] (by decide) 5 b derived
    simp [targetSets] at least

end ProgramSlicer.Andersen
