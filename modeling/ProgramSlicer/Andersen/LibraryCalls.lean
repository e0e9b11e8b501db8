import ProgramSlicer.Andersen.CollectionSound
import ProgramSlicer.Andersen.ExternalLibrary

/-!
What a function of the C library does at a call, as far as pointers are concerned,
and which of the summaries in `addConstraintForExternalLibrary` account for it. An
object that a call allocates is numbered like those of an `alloca`.
-/
namespace ProgramSlicer.Andersen
open InclusionConstraints AndersNodeFactory

/-- What the function of a call is for. -/
inductive Summary where
  | allocate
  | memalign (pp : PtrValue)
  | reallocate (p : PtrValue)
  | token (s : PtrValue)
  | workingDirectory (buf : PtrValue)
  | move (dest src : PtrValue)
  | bcopy (src dest : PtrValue)
  | convert (s endp : PtrValue)

/-- The functions of the four tables. Three of the conversions have their name in an
    earlier table too. -/
inductive Describes (name : String) (args : List PtrValue) : Summary → Prop
  | allocate (listed : name ∈ mallocFuncs) (other : name ≠ "posix_memalign") :
      Describes name args .allocate
  | memalign {pp : PtrValue} (named : name = "posix_memalign") (first : args[0]? = some pp) :
      Describes name args (.memalign pp)
  | reallocate {p : PtrValue} (named : name = "realloc") (first : args[0]? = some p) :
      Describes name args (.reallocate p)
  | token {s : PtrValue} (named : name = "strtok" ∨ name = "strtok_r")
      (first : args[0]? = some s) : Describes name args (.token s)
  | workingDirectory {buf : PtrValue} (named : name = "getcwd") (first : args[0]? = some buf) :
      Describes name args (.workingDirectory buf)
  | move {dest src : PtrValue} (listed : name ∈ memcpyFuncs) (other : name ≠ "bcopy")
      (first : args[0]? = some dest) (second : args[1]? = some src) :
      Describes name args (.move dest src)
  | bcopy {src dest : PtrValue} (named : name = "bcopy") (first : args[0]? = some src)
      (second : args[1]? = some dest) : Describes name args (.bcopy src dest)
  | convert {s endp : PtrValue} (listed : name ∈ convertFuncs) (kept : name ∉ noopFuncs)
      (first : args[0]? = some s) (second : args[1]? = some endp) :
      Describes name args (.convert s endp)

/-- What the pointers of a state are. `strtok` remembers where it goes on. -/
structure CallState where
  results : InstId → Option Address
  args : ArgId → Option Address
  memory : Memory
  saved : Option Address

namespace CallState

def eval (σ : CallState) : PtrValue → Option Address
  | .instruction i => σ.results i
  | .argument a => σ.args a
  | .constant c => c.eval
  | .scalar => none

structure Fresh (σ : CallState) (o : MemoryObject) : Prop where
  results : ∀ i a, σ.results i = some a → a.object ≠ o
  args : ∀ p a, σ.args p = some a → a.object ≠ o
  memory : ∀ c a, σ.memory c = some a → c.object ≠ o ∧ a.object ≠ o
  saved : ∀ a, σ.saved = some a → a.object ≠ o

def after (σ : CallState) (I : PtrInstruction) (result : Option Address) (memory' : Memory) :
    CallState :=
  { σ with
    results := if I.pointerTy then Function.update σ.results I.id result else σ.results
    memory := memory' }

end CallState

/-- The object may come to hold pointers of another one; pointers may be overwritten. -/
def Copied (memory memory' : Memory) (dest : MemoryObject) (src : Option Address) : Prop :=
  ∀ c a, memory' c = some a → memory c = some a ∨
    c.object = dest ∧ ∃ s k, src = some s ∧ memory ⟨s.object, k⟩ = some a

def Written (memory memory' : Memory) : Prop := ∀ c a, memory' c = some a → memory c = some a

/-- The result and the memory that C and POSIX allow. -/
inductive Behaves (site : InstId) (σ : CallState) : Summary → Option Address → Memory → Prop
  | allocateFails : Behaves site σ .allocate none σ.memory
  | allocate {n : Nat} (fresh : σ.Fresh (.stack site n)) :
      Behaves site σ .allocate (some ⟨.stack site n, 0⟩) σ.memory
  | memalignFails (pp : PtrValue) : Behaves site σ (.memalign pp) none σ.memory
  | memalign {pp : PtrValue} {e : Address} {n : Nat} {memory' : Memory}
      (pointer : σ.eval pp = some e) (fresh : σ.Fresh (.stack site n))
      (stored : Stored σ.memory memory' e (some ⟨.stack site n, 0⟩)) :
      Behaves site σ (.memalign pp) none memory'
  | reallocateFails (p : PtrValue) : Behaves site σ (.reallocate p) none σ.memory
  | reallocateInPlace {p : PtrValue} {a : Address} (held : σ.eval p = some a) :
      Behaves site σ (.reallocate p) (some a) σ.memory
  | reallocate {p : PtrValue} {n : Nat} {memory' : Memory} (fresh : σ.Fresh (.stack site n))
      (copied : Copied σ.memory memory' (.stack site n) (σ.eval p)) :
      Behaves site σ (.reallocate p) (some ⟨.stack site n, 0⟩) memory'
  | tokenEnds (s : PtrValue) {memory' : Memory} (written : Written σ.memory memory') :
      Behaves site σ (.token s) none memory'
  | token {s : PtrValue} {t a : Address} {memory' : Memory}
      (scanned : (σ.eval s).or σ.saved = some t) (inside : a.object = t.object)
      (written : Written σ.memory memory') : Behaves site σ (.token s) (some a) memory'
  | directoryFails (buf : PtrValue) : Behaves site σ (.workingDirectory buf) none σ.memory
  | directory {buf : PtrValue} {a : Address} {memory' : Memory} (held : σ.eval buf = some a)
      (written : Written σ.memory memory') :
      Behaves site σ (.workingDirectory buf) (some a) memory'
  | directoryAllocated {buf : PtrValue} {n : Nat} (null : σ.eval buf = none)
      (fresh : σ.Fresh (.stack site n)) :
      Behaves site σ (.workingDirectory buf) (some ⟨.stack site n, 0⟩) σ.memory
  | move {dest src : PtrValue} {d : Address} {result : Option Address} {memory' : Memory}
      (pointer : σ.eval dest = some d) (inside : ∀ a, result = some a → a.object = d.object)
      (copied : Copied σ.memory memory' d.object (σ.eval src)) :
      Behaves site σ (.move dest src) result memory'
  | bcopy {src dest : PtrValue} {d : Address} {memory' : Memory} (pointer : σ.eval dest = some d)
      (copied : Copied σ.memory memory' d.object (σ.eval src)) :
      Behaves site σ (.bcopy src dest) none memory'
  | convertOnly {s endp : PtrValue} (null : σ.eval endp = none) :
      Behaves site σ (.convert s endp) none σ.memory
  | convert {s endp : PtrValue} {t e a : Address} {memory' : Memory} (text : σ.eval s = some t)
      (pointer : σ.eval endp = some e) (inside : a.object = t.object)
      (stored : Stored σ.memory memory' e (some a)) :
      Behaves site σ (.convert s endp) none memory'

namespace Collection
variable {A B : Collection}

/-- What is asked of a solution in a state. Of the constants only the operands of the call
    have their addresses known. -/
structure OverApproximates (A : Collection) (pts : NodeIndex → Set NodeIndex)
    (operands : List PtrValue) (σ : CallState) : Prop where
  results : ∀ i a, σ.results i = some a →
    A.PointsTo pts (A.getValueNodeFor (.instruction i)) a.object
  args : ∀ p a, σ.args p = some a → A.PointsTo pts (A.getValueNodeFor (.argument p)) a.object
  constants : ∀ c, .constant c ∈ operands → ∀ a, c.eval = some a →
    A.PointsTo pts (A.getValueNodeFor (.constant c)) a.object
  memory : ∀ c a, σ.memory c = some a → A.PointsTo pts (A.objectNode c.object) a.object

/-- How nodes are handed out: the first four are reserved, no two slots share one, and
    the instruction has one if it is a pointer. -/
structure Numbered (A : Collection) (I : PtrInstruction) : Prop where
  handedOut : ∀ k n, A.node k = some n → 4 ≤ n ∧ n < A.nodeFactory.numNodes
  apart : ∀ k k' n, A.node k = some n → A.node k' = some n → k = k'
  site : (A.node (.value (.instruction I.id))).isSome = I.pointerTy

end Collection

/-- Whatever the constraints before and after this call, every solution of all of them
    that over-approximates the state before it does so after it. -/
def SummarySound (names : FuncId → String) (I : PtrInstruction) (args : List PtrValue)
    (f : PtrFunction) (S : Summary) : Prop :=
  ∀ (M : PtrModule) (A A' B : Collection), A.Numbered I →
    A.addConstraintForExternalLibrary names M I args f = some (true, A') → A' ≤ B →
    ∀ pts, Solves (constraintSystem B.constraints) pts →
    ∀ σ, B.OverApproximates pts args σ → ∀ result memory', Behaves I.id σ S result memory' →
    B.OverApproximates pts args (σ.after I result memory')

/-- What the nodes of a value are found under. -/
def Constant.entity : Constant → Option Entity
  | globalValue v => some (.globalValue v)
  | getElementPtr base _ => base.entity
  | bitCast operand => operand.entity
  | _ => none

def PtrValue.entity : PtrValue → Option Entity
  | .instruction i => some (.instruction i)
  | .argument a => some (.argument a)
  | .constant c => c.entity
  | .scalar => none

/-- Whether the value is an address in some state. -/
def PtrValue.mayHold : PtrValue → Bool
  | .instruction _ | .argument _ => true
  | .constant c => c.eval.isSome
  | .scalar => false

/-- The calls for which the constraints are enough. An instruction that is its own operand
    is never executed. -/
def Summary.Accounted (site : InstId) : Summary → Prop
  | allocate => True
  | memalign pp => pp.mayHold = false
  | reallocate p => p.isPointerNull = false ∧ p.mayHold = false
  | token _ => False
  | workingDirectory buf =>
    buf.isPointerNull = false ∧ (buf.mayHold = false ∨ buf.entity = some (.instruction site))
  | move _ _ => True
  | bcopy src dest => src.mayHold = false ∨ dest.mayHold = false ∨ src.entity = dest.entity
  | convert s endp => s.mayHold = false ∨ endp.mayHold = false ∨ s.entity = endp.entity

namespace Collection
variable {A A' B : Collection} {names : FuncId → String} {I : PtrInstruction}
  {args : List PtrValue}

/-! ### The constraints with the nodes that there are at the end -/

theorem site_node (numbered : A.Numbered I) (pointer : I.pointerTy = true) :
    ∃ r, A.getValueNodeFor (.instruction I.id) = some r :=
  Option.isSome_iff_exists.mp (numbered.site.trans pointer)

theorem allocation_joined (numbered : A.Numbered I)
    (run : A.addAllocation names I args = some A') (le : A' ≤ B) (pointer : I.pointerTy = true)
    (n : Nat) :
    B.Joined .ADDR_OF (B.getValueNodeFor (.instruction I.id)) (B.objectNode (.stack I.id n)) := by
  obtain ⟨r, isRet⟩ := site_node numbered pointer
  rw [addAllocation_eq (free_of_addAllocation run), isRet] at run
  obtain rfl := Option.some.inj run
  have value := value_mono (le.trans' (le_emplace _ _ _))
    ((getValueNodeFor_withObject (.instruction I.id)).trans isRet)
  have object := node_mono (le.trans' (le_emplace _ _ _))
    (node_allocated A (.object (.instruction I.id)))
  exact ⟨r, _, value, object, le.2 (mem_emplace _ _ _)⟩

theorem memcpy_joined (run : A.addMemcpy I args = some A') (le : A' ≤ B) {dest src : PtrValue}
    (first : args[0]? = some dest) (second : args[1]? = some src) :
    ∃ t d s, B.getValueNodeFor dest = some d ∧ B.getValueNodeFor src = some s ∧
      ⟨.LOAD, t, s⟩ ∈ B.constraints ∧ ⟨.STORE, d, t⟩ ∈ B.constraints ∧
      ∀ r, A.getValueNodeFor (.instruction I.id) = some r →
        B.Joined .COPY (B.getValueNodeFor (.instruction I.id)) (B.getValueNodeFor dest) := by
  rw [addMemcpy_eq, first, second] at run
  obtain ⟨d, isDest, run⟩ := Option.bind_eq_some_iff.mp run
  obtain ⟨s, isSrc, run⟩ := Option.map_eq_some_iff.mp run
  have kept : A.withTransfer d s ≤ B := le.trans' (run ▸ le_withCopy d s)
  have value : ∀ {v k}, A.getValueNodeFor v = some k → B.getValueNodeFor v = some k :=
    fun found => value_mono kept ((getValueNodeFor_withTransfer d s _).trans found)
  refine ⟨A.nodeFactory.numNodes, d, s, value isDest, value isSrc, kept.2 ?_, kept.2 ?_, ?_⟩
  · simp [withTransfer, emplace, NodeMaps.createUnnamedNode]
  · simp [withTransfer, emplace, NodeMaps.createUnnamedNode]
  · intro r isRet
    unfold withCopy at run
    rw [isRet] at run
    exact ⟨r, d, value isRet, value isDest, le.2 (run ▸ mem_emplace _ _ _)⟩

theorem conversion_joined (run : A.addConversion args = some A') (le : A' ≤ B)
    {s endp : PtrValue} (first : args[0]? = some s) (second : args[1]? = some endp)
    (notNull : endp.isPointerNull = false) :
    B.Joined .STORE (B.getValueNodeFor s) (B.getValueNodeFor endp) := by
  rw [addConversion_eq, first, second] at run
  simp only [Option.bind_some, notNull, Bool.false_eq_true, if_false] at run
  obtain ⟨k, isText, run⟩ := Option.bind_eq_some_iff.mp run
  obtain ⟨e, isEnd, run⟩ := Option.map_eq_some_iff.mp run
  have kept : A ≤ B := le.trans' (run ▸ le_emplace _ _ _)
  exact ⟨k, e, value_mono kept isText, value_mono kept isEnd, le.2 (run ▸ mem_emplace _ _ _)⟩

end Collection

/-! ### The summaries that account for the call -/

theorem eval_of_not_mayHold {v : PtrValue} (holds : v.mayHold = false) (σ : CallState) :
    σ.eval v = none := by
  cases v with
  | constant c => simpa [PtrValue.mayHold, CallState.eval] using holds
  | scalar => rfl
  | _ => cases holds

theorem mayHold_of_eval {v : PtrValue} {σ : CallState} {a : Address} (held : σ.eval v = some a) :
    v.mayHold = true := by
  by_contra never
  rw [eval_of_not_mayHold (by simpa using never) σ] at held
  cases held

theorem notNull_of_eval {v : PtrValue} {σ : CallState} {a : Address} (held : σ.eval v = some a) :
    v.isPointerNull = false := by
  by_contra null
  cases v with
  | constant c => cases c <;> first | cases held | exact null rfl
  | _ => exact null rfl

theorem eval_of_null {v : PtrValue} (null : v.isPointerNull = true) (σ : CallState) :
    σ.eval v = none := by
  cases held : σ.eval v with
  | none => rfl
  | some a =>
    rw [notNull_of_eval held] at null
    cases null

theorem entity_of_eval {c : Constant} {a : Address} (held : c.eval = some a) :
    ∃ g, c.entity = some (.globalValue (.globalVariable g)) ∧ a.object = .global g := by
  induction c using Constant.eval.induct generalizing a with
  | case1 g => exact ⟨g, rfl, by rw [← Option.some.inj held]⟩
  | case2 base offset ih =>
    obtain ⟨a₀, inner, shifted⟩ := Option.map_eq_some_iff.mp held
    obtain ⟨g, found, object⟩ := ih inner
    exact ⟨g, found, by rw [← shifted, Address.shift_object, object]⟩
  | case3 operand ih => exact ih held
  | _ => simp [Constant.eval] at held

theorem entity_of_mayHold {v : PtrValue} (holds : v.mayHold = true) : ∃ e, v.entity = some e := by
  cases v with
  | instruction i => exact ⟨_, rfl⟩
  | argument a => exact ⟨_, rfl⟩
  | constant c =>
    obtain ⟨a, held⟩ := Option.isSome_iff_exists.mp holds
    obtain ⟨g, found, _⟩ := entity_of_eval held
    exact ⟨_, found⟩
  | scalar => cases holds

namespace Collection

theorem node_of_entity {v : PtrValue} {e : Entity} (found : v.entity = some e) (A : Collection) :
    A.getValueNodeFor v = A.node (.value e) := by
  cases v with
  | instruction i => rw [← Option.some.inj found]; rfl
  | argument a => rw [← Option.some.inj found]; rfl
  | constant c =>
    show A.nodeFactory.getValueNodeForConstant c = _
    replace found : c.entity = some e := found
    induction c using Constant.entity.induct with
    | case1 v => rw [← Option.some.inj found]; rfl
    | case2 base offset ih => exact ih found
    | case3 operand ih => exact ih found
    | _ => simp_all [Constant.entity]
  | scalar => cases found

theorem sameNode {v w : PtrValue} (same : v.entity = w.entity) (holds : v.mayHold = true)
    (A : Collection) : A.getValueNodeFor v = A.getValueNodeFor w := by
  obtain ⟨e, found⟩ := entity_of_mayHold holds
  rw [node_of_entity found, node_of_entity (same ▸ found)]

section After
variable {B : Collection} {I : PtrInstruction} {args : List PtrValue}
  {pts : NodeIndex → Set NodeIndex} {σ : CallState}
  (before : B.OverApproximates pts args σ)
include before

theorem eval_pointsTo {v : PtrValue} (operand : v ∈ args) {a : Address}
    (held : σ.eval v = some a) : B.PointsTo pts (B.getValueNodeFor v) a.object := by
  cases v with
  | instruction i => exact before.results i a held
  | argument p => exact before.args p a held
  | constant c => exact before.constants c operand a held
  | scalar => cases held

theorem after_overApproximates {result : Option Address} {memory' : Memory}
    (returned : I.pointerTy = true → ∀ a, result = some a →
      B.PointsTo pts (B.getValueNodeFor (.instruction I.id)) a.object)
    (memory : ∀ c a, memory' c = some a → B.PointsTo pts (B.objectNode c.object) a.object) :
    B.OverApproximates pts args (σ.after I result memory') := by
  refine ⟨fun i a held => ?_, before.args, before.constants, memory⟩
  simp only [CallState.after] at held
  split at held
  · rename_i pointer
    by_cases here : i = I.id
    · rw [here, Function.update_self] at held
      exact here ▸ returned pointer a held
    · rw [Function.update_of_ne here] at held
      exact before.results i a held
  · exact before.results i a held

theorem after_nothing : B.OverApproximates pts args (σ.after I none σ.memory) :=
  after_overApproximates before (fun _ _ held => nomatch held) before.memory

theorem written_pointsTo {memory' : Memory} (written : Written σ.memory memory') :
    ∀ c a, memory' c = some a → B.PointsTo pts (B.objectNode c.object) a.object :=
  fun c a held => before.memory c a (written c a held)

theorem copied_pointsTo (solves : Solves (constraintSystem B.constraints) pts)
    {dest src : PtrValue} (isDest : dest ∈ args) (isSrc : src ∈ args) {t d s : NodeIndex}
    (destNode : B.getValueNodeFor dest = some d) (srcNode : B.getValueNodeFor src = some s)
    (load : ⟨.LOAD, t, s⟩ ∈ B.constraints) (store : ⟨.STORE, d, t⟩ ∈ B.constraints)
    {e : Address} (pointer : σ.eval dest = some e) {memory' : Memory}
    (copied : Copied σ.memory memory' e.object (σ.eval src)) :
    ∀ c a, memory' c = some a → B.PointsTo pts (B.objectNode c.object) a.object := by
  intro c a held
  rcases copied c a held with kept | ⟨inside, p, k, from_, source⟩
  · exact before.memory c a kept
  · obtain ⟨d', bd, isD, isBd, toDest⟩ := eval_pointsTo before isDest pointer
    obtain ⟨s', bs, isS, isBs, toSrc⟩ := eval_pointsTo before isSrc from_
    obtain ⟨l, b, isL, isB, value⟩ := before.memory _ _ source
    obtain rfl := Option.some.inj (isD.symm.trans destNode)
    obtain rfl := Option.some.inj (isS.symm.trans srcNode)
    obtain rfl := Option.some.inj (isL.symm.trans isBs)
    have loaded := solves.load t s' load l toSrc value
    exact ⟨bd, b, inside ▸ isBd, isB, solves.store d' t store bd toDest loaded⟩

end After

end Collection

open Collection

theorem allocation_returns {names : FuncId → String} {I : PtrInstruction} {args : List PtrValue}
    {A A' B : Collection} (numbered : A.Numbered I)
    (run : A.addAllocation names I args = some A') (le : A' ≤ B)
    {pts : NodeIndex → Set NodeIndex} (solves : Solves (constraintSystem B.constraints) pts)
    (n : Nat) (pointer : I.pointerTy = true) (a : Address)
    (fresh : some (⟨.stack I.id n, 0⟩ : Address) = some a) :
    B.PointsTo pts (B.getValueNodeFor (.instruction I.id)) a.object := by
  rw [← Option.some.inj fresh]
  exact pointsTo_addrOf solves (allocation_joined numbered run le pointer n)

theorem accounted_sound {names : FuncId → String} {I : PtrInstruction} {args : List PtrValue}
    {f : PtrFunction} {S : Summary} (describes : Describes (names f.id) args S)
    (accounted : S.Accounted I.id) : SummarySound names I args f S := by
  intro M A A' B numbered run le pts solves σ before result memory' behaves
  cases describes with
  | allocate listed other =>
    obtain ⟨_, run⟩ := (dispatch_malloc listed).mp run
    cases behaves with
    | allocateFails => exact after_nothing before
    | allocate fresh =>
      exact after_overApproximates before (allocation_returns numbered run le solves _)
        before.memory
  | memalign named first =>
    cases behaves with
    | memalignFails => exact after_nothing before
    | memalign pointer => rw [eval_of_not_mayHold accounted] at pointer; cases pointer
  | @reallocate p named first =>
    have listed : names f.id ∈ reallocFuncs := by rw [named]; decide
    obtain ⟨_, run⟩ := (dispatch_realloc listed first).mp run
    rw [accounted.1] at run
    have null := eval_of_not_mayHold accounted.2 σ
    cases behaves with
    | reallocateFails => exact after_nothing before
    | reallocateInPlace held => rw [null] at held; cases held
    | reallocate fresh copied =>
      apply after_overApproximates before (allocation_returns numbered run le solves _)
      intro c a held
      rcases copied c a held with kept | ⟨_, p, k, from_, _⟩
      · exact before.memory c a kept
      · rw [null] at from_
        cases from_
  | token => exact absurd accounted (by simp [Summary.Accounted])
  | @workingDirectory buf named first =>
    have listed : names f.id ∈ reallocFuncs := by rw [named]; decide
    obtain ⟨_, run⟩ := (dispatch_realloc listed first).mp run
    rw [accounted.1] at run
    cases behaves with
    | directoryFails => exact after_nothing before
    | directory held written =>
      apply after_overApproximates before _ (written_pointsTo before written)
      intro _ a same
      obtain rfl := Option.some.inj same
      rcases accounted.2 with never | own
      · rw [eval_of_not_mayHold never] at held
        cases held
      · have known := eval_pointsTo before (List.mem_of_getElem? first) held
        rw [node_of_entity own] at known
        exact known
    | directoryAllocated null fresh =>
      exact after_overApproximates before (allocation_returns numbered run le solves _)
        before.memory
  | @move dest src listed other first second =>
    obtain ⟨_, run⟩ := (dispatch_memcpy listed).mp run
    obtain ⟨t, d, s, isDest, isSrc, load, store, returns⟩ := memcpy_joined run le first second
    have destArg := List.mem_of_getElem? first
    cases behaves with
    | move pointer inside copied =>
      apply after_overApproximates before _ (copied_pointsTo before solves destArg
        (List.mem_of_getElem? second) isDest isSrc load store pointer copied)
      intro typed a same
      obtain ⟨r, isRet⟩ := site_node numbered typed
      rw [inside a same]
      exact pointsTo_copy solves (returns r isRet) (eval_pointsTo before destArg pointer)
  | @bcopy src dest named first second =>
    have listed : names f.id ∈ memcpyFuncs := by rw [named]; decide
    obtain ⟨_, run⟩ := (dispatch_memcpy listed).mp run
    obtain ⟨t, d, s, isFirst, isSecond, load, store, _⟩ := memcpy_joined run le first second
    cases behaves with
    | bcopy pointer copied =>
      refine after_overApproximates before (fun _ _ held => nomatch held) ?_
      intro c a held
      rcases copied c a held with kept | ⟨inside, p, k, from_, source⟩
      · exact before.memory c a kept
      · have both := (accounted.resolve_left (by simp [mayHold_of_eval from_])).resolve_left
          (by simp [mayHold_of_eval pointer])
        have same := sameNode both (mayHold_of_eval from_) B
        have moved := copied_pointsTo before solves (List.mem_of_getElem? second)
          (List.mem_of_getElem? first) (same ▸ isFirst) (same ▸ isSecond) load store pointer copied
        exact moved c a held
  | @convert s endp listed kept first second =>
    obtain ⟨_, run⟩ := (dispatch_convert listed kept).mp run
    cases behaves with
    | convertOnly => exact after_nothing before
    | @convert _ _ t e a memory' text pointer inside stored =>
      refine after_overApproximates before (fun _ _ held => nomatch held) ?_
      have both := (accounted.resolve_left (by simp [mayHold_of_eval text])).resolve_left
        (by simp [mayHold_of_eval pointer])
      have joined := conversion_joined run le first second (notNull_of_eval pointer)
      have same := sameNode both (mayHold_of_eval text) B
      have toText := eval_pointsTo before (List.mem_of_getElem? first) text
      have toEnd := eval_pointsTo before (List.mem_of_getElem? second) pointer
      intro c b held
      by_cases here : c = e
      · rw [here, stored.here] at held
        rw [here, ← Option.some.inj held, inside]
        exact pointsTo_store solves joined (same ▸ toEnd) (same ▸ toText)
      · rcases stored.elsewhere c here with kept | lost
        · exact before.memory c b (kept ▸ held)
        · rw [lost] at held
          cases held

end ProgramSlicer.Andersen
