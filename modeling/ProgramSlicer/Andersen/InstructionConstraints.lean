import ProgramSlicer.Andersen.GlobalConstraints

/-!
The constraints of the instructions, and the whole of `collectConstraints`: on
the modules it is meant for it comes through, and every instruction is covered.
-/
namespace ProgramSlicer.Andersen
open FoldRules AndersNodeFactory

namespace Collection
variable {A A' : Collection} {M : PtrModule} {F : PtrFunction}

/-- Everything an instruction of the function may name has its node. -/
structure OperandsReady (M : PtrModule) (F : PtrFunction) (A : Collection) : Prop where
  globals : A.GlobalsReady M
  body : A.BodyReady F
  insts : ∀ I ∈ F.insts, I.pointerTy = true → .value (.instruction I.id) ∈ A.taken

theorem operandsReady_mono {M : PtrModule} {F : PtrFunction} (le : A ≤ A')
    (ready : A.OperandsReady M F) : A'.OperandsReady M F where
  globals := globalsReady_mono le ready.globals
  body := bodyReady_mono le ready.body
  insts I mem pointer := taken_mono le (ready.insts I mem pointer)

theorem pointer_ready {M : PtrModule} {F : PtrFunction} (ready : A.OperandsReady M F)
    {v : PtrValue} (pointer : v.isPointerIn M F = true)
    (used : ∀ f, v.mentions f = true → M.hasAddressTaken f = true) :
    ∃ n, A.getValueNodeFor v = some n := by
  cases v with
  | instruction i =>
    obtain ⟨J, mem, named⟩ := List.any_eq_true.mp pointer
    simp only [Bool.and_eq_true, decide_eq_true_eq] at named
    exact taken_iff.mp (named.1 ▸ ready.insts J mem named.2)
  | argument a =>
    obtain ⟨formal, mem, named⟩ := List.any_eq_true.mp pointer
    simp only [Bool.and_eq_true, decide_eq_true_eq] at named
    exact taken_iff.mp (named.1 ▸ ready.body.formals formal mem named.2)
  | constant c =>
    cases c with
    | undefPointer => exact ⟨_, rfl⟩
    | _ => exact (address_ready ready.globals pointer used).1
  | scalar => cases pointer

theorem address_taken_of_operand {M : PtrModule} {F : PtrFunction} (defined : F ∈ M.functions)
    {I : PtrInstruction} (mem : I ∈ F.insts) {v : PtrValue} (operand : v ∈ I.op.operands)
    {f : FuncId} (mentioned : v.mentions f = true) : M.hasAddressTaken f = true := by
  apply M.address_used
  unfold usesAddress
  rw [Bool.or_eq_true]
  right
  exact List.any_eq_true.mpr ⟨F, defined, List.any_eq_true.mpr
    ⟨I, mem, List.any_eq_true.mpr ⟨v, operand, mentioned⟩⟩⟩

theorem emplace_joined {type : ConstraintType} {dest src : NodeIndex} {d s : Option NodeIndex}
    (isDest : d = some dest) (isSrc : s = some src) : (A.emplace type dest src).Joined type d s :=
  ⟨dest, src, isDest, isSrc, mem_emplace ..⟩

@[simp] theorem getValueNodeFor_emplace (type : ConstraintType) (dest src : NodeIndex)
    (v : PtrValue) : (A.emplace type dest src).getValueNodeFor v = A.getValueNodeFor v := rfl

theorem copyValue_spec {dst src : PtrValue} (hasDst : ∃ n, A.getValueNodeFor dst = some n)
    (hasSrc : ∃ n, A.getValueNodeFor src = some n) :
    ∃ A', A.copyValue dst src = some A' ∧ A.Makes A' ∅ ∧
      A'.Joined .COPY (A'.getValueNodeFor dst) (A'.getValueNodeFor src) := by
  obtain ⟨d, foundD⟩ := hasDst
  obtain ⟨s, foundS⟩ := hasSrc
  exact ⟨A.emplace .COPY d s, by simp [copyValue, foundD, foundS], makes_emplace ..,
    emplace_joined foundD foundS⟩

theorem copyUniversal_spec {dst : PtrValue} (hasDst : ∃ n, A.getValueNodeFor dst = some n) :
    ∃ A', A.copyUniversal dst = some A' ∧ A.Makes A' ∅ := by
  obtain ⟨d, foundD⟩ := hasDst
  exact ⟨A.emplace .COPY d UniversalPtrIndex, by simp [copyUniversal, foundD], makes_emplace ..⟩

theorem copy_mono (le : A ≤ A') {dst src : PtrValue}
    (joined : A.Joined .COPY (A.getValueNodeFor dst) (A.getValueNodeFor src)) :
    A'.Joined .COPY (A'.getValueNodeFor dst) (A'.getValueNodeFor src) :=
  joined_mono le joined (fun _ => value_mono le) (fun _ => value_mono le)

theorem foldlM_emplaces {α : Type} {f : Collection → α → Option Collection} {l : List α}
    {D : α → Collection → Prop}
    (step : ∀ x ∈ l, ∀ B, A ≤ B → ∃ B', f B x = some B' ∧ B.Makes B' ∅ ∧ D x B')
    (mono : ∀ x ∈ l, ∀ B B', B ≤ B' → D x B → D x B') :
    ∃ A', l.foldlM f A = some A' ∧ A.Makes A' ∅ ∧ ∀ x ∈ l, D x A' := by
  obtain ⟨A', run, le, keys, done⟩ := foldlM_allocates (f := f) (l := l) (s := A) (T := taken)
    (N := fun _ => ∅) (D := D)
    (fun x mem B later _ => by
      obtain ⟨B', run, makes, done⟩ := step x mem B later
      exact ⟨B', run, makes.le, makes.taken, done⟩)
    mono (List.pairwise_of_forall fun _ _ => by simp) (fun _ _ => by simp)
  exact ⟨A', run, ⟨le, by simpa using keys⟩, done⟩

def Passes (A : Collection) (pair : Argument × PtrValue) : Prop :=
  pair.1.pointerTy = true → pair.2.isPointerTy = true →
    A.Joined .COPY (A.getValueNodeFor (.argument pair.1.id)) (A.getValueNodeFor pair.2)

theorem addFormalActual_spec {pair : Argument × PtrValue}
    (hasFormal : pair.1.pointerTy = true → ∃ n, A.getValueNodeFor (.argument pair.1.id) = some n)
    (hasActual : pair.2.isPointerTy = true → ∃ n, A.getValueNodeFor pair.2 = some n) :
    ∃ A', A.addFormalActual pair = some A' ∧ A.Makes A' ∅ ∧ A'.Passes pair := by
  apply onlyIf_spec
  intro formal
  split
  · rename_i actual
    obtain ⟨A', run, makes, joined⟩ := copyValue_spec (hasFormal formal) (hasActual actual)
    exact ⟨A', run, makes, fun _ => joined⟩
  · rename_i scalar
    obtain ⟨A', run, makes⟩ := copyUniversal_spec (hasFormal formal)
    exact ⟨A', run, makes, fun actual => absurd actual scalar⟩

theorem addVararg_spec {F : PtrFunction} {actual : PtrValue} (hasVararg : .vararg F.id ∈ A.taken)
    (hasActual : actual.isPointerTy = true → ∃ n, A.getValueNodeFor actual = some n) :
    ∃ A', A.addVararg F actual = some A' ∧ A.Makes A' ∅ := by
  obtain ⟨va, foundVa⟩ := taken_iff.mp hasVararg
  obtain ⟨A', run, makes, _⟩ := onlyIf_spec (A := A) (c := actual.isPointerTy) (K := ∅)
    (f := fun A => do
      let aIndex ← A.getValueNodeFor actual
      let vaIndex ← A.nodeFactory.varargMap F.id
      return A.emplace .COPY vaIndex aIndex) (D := fun _ => True) fun pointer => by
      obtain ⟨n, found⟩ := hasActual pointer
      have here : A.nodeFactory.varargMap F.id = some va := foundVa
      exact ⟨A.emplace .COPY va n, by simp [found, here], makes_emplace .., trivial⟩
  exact ⟨A', run, makes⟩

theorem addArgumentConstraintForCall_spec {F : PtrFunction} (args : List PtrValue)
    (body : A.BodyReady F)
    (actuals : ∀ v ∈ args, v.isPointerTy = true → ∃ n, A.getValueNodeFor v = some n) :
    ∃ A', A.addArgumentConstraintForCall args F = some A' ∧ A.Makes A' ∅ ∧
      ∀ pair ∈ F.args.zip args, A'.Passes pair := by
  obtain ⟨A₁, run₁, makes₁, done₁⟩ := foldlM_emplaces (A := A) (f := addFormalActual)
    (l := F.args.zip args) (D := fun pair A => A.Passes pair)
    (fun pair mem B later => by
      obtain ⟨formal, actual⟩ := List.of_mem_zip mem
      apply addFormalActual_spec
      · exact fun pointer => taken_iff.mp (taken_mono later (body.formals _ formal pointer))
      · intro pointer
        obtain ⟨n, found⟩ := actuals _ actual pointer
        exact ⟨n, value_mono later found⟩)
    (fun pair _ B B' le done formal actual => copy_mono le (done formal actual))
  obtain ⟨A₂, run₂, makes₂, _⟩ := onlyIf_spec (A := A₁) (c := F.isVarArg) (K := ∅)
    (f := ((args.drop F.args.length).foldlM (addVararg F) ·)) (D := fun _ => True) fun variadic => by
      obtain ⟨A', run, makes, _⟩ := foldlM_emplaces (A := A₁) (f := addVararg F)
        (l := args.drop F.args.length) (D := fun _ _ => True)
        (fun v mem B later => by
          have le := makes₁.le.trans later
          obtain ⟨B', run, makes⟩ := addVararg_spec (taken_mono le (body.varargs variadic))
            fun pointer => by
              obtain ⟨n, found⟩ := actuals v (List.mem_of_mem_drop mem) pointer
              exact ⟨n, value_mono le found⟩
          exact ⟨B', run, makes, trivial⟩)
        (fun _ _ _ _ _ _ => trivial)
      exact ⟨A', run, makes, trivial⟩
  refine ⟨A₂, by simp [addArgumentConstraintForCall, run₁, run₂], makes_trans makes₁ makes₂, ?_⟩
  exact fun pair mem formal actual => copy_mono makes₂.le (done₁ pair mem formal actual)

/-- The constraints that account for what an instruction does with pointers. -/
def Covers (M : PtrModule) (F : PtrFunction) (A : Collection) (I : PtrInstruction) : Prop :=
  match I.op with
  | .alloca => A.Joined .ADDR_OF (A.getValueNodeFor (.instruction I.id))
      (A.node (.object (.instruction I.id)))
  | .call (.direct f) args => ∀ G, M.function? f = some G →
      (I.pointerTy = true →
        A.Joined .COPY (A.getValueNodeFor (.instruction I.id)) (A.node (.ret G.id))) ∧
      ∀ pair ∈ G.args.zip args, A.Passes pair
  | .ret (some v) => v.isPointerTy = true → A.Joined .COPY (A.node (.ret F.id)) (A.getValueNodeFor v)
  | .load p => I.pointerTy = true →
      A.Joined .LOAD (A.getValueNodeFor (.instruction I.id)) (A.getValueNodeFor p)
  | .store v p => v.isPointerTy = true → A.Joined .STORE (A.getValueNodeFor p) (A.getValueNodeFor v)
  | .getElementPtr v | .bitCast v => I.pointerTy = true →
      A.Joined .COPY (A.getValueNodeFor (.instruction I.id)) (A.getValueNodeFor v)
  | .phi incoming => I.pointerTy = true → ∀ edge ∈ incoming,
      A.Joined .COPY (A.getValueNodeFor (.instruction I.id)) (A.getValueNodeFor edge.2)
  | .select v w => I.pointerTy = true →
      A.Joined .COPY (A.getValueNodeFor (.instruction I.id)) (A.getValueNodeFor v) ∧
      A.Joined .COPY (A.getValueNodeFor (.instruction I.id)) (A.getValueNodeFor w)
  | _ => True

theorem covers_mono (le : A ≤ A') {I : PtrInstruction} (covers : A.Covers M F I) :
    A'.Covers M F I := by
  have value : ∀ {v : PtrValue} n, A.getValueNodeFor v = some n → A'.getValueNodeFor v = some n :=
    fun _ => value_mono le
  have slot : ∀ {k : Slot} n, A.node k = some n → A'.node k = some n := fun _ => node_mono le
  revert covers
  unfold Covers
  cases I.op with
  | alloca => exact fun covers => joined_mono le covers value slot
  | call callee args =>
    cases callee with
    | direct f =>
      intro covers G found
      obtain ⟨result, passes⟩ := covers G found
      exact ⟨fun pointer => joined_mono le (result pointer) value slot,
        fun pair mem formal actual => copy_mono le (passes pair mem formal actual)⟩
    | indirect v => exact id
  | ret v =>
    cases v with
    | none => exact id
    | some v => exact fun covers pointer => joined_mono le (covers pointer) slot value
  | load p => exact fun covers pointer => joined_mono le (covers pointer) value value
  | store v p => exact fun covers pointer => joined_mono le (covers pointer) value value
  | getElementPtr v => exact fun covers pointer => copy_mono le (covers pointer)
  | bitCast v => exact fun covers pointer => copy_mono le (covers pointer)
  | phi incoming => exact fun covers pointer edge mem => copy_mono le (covers pointer edge mem)
  | select v w =>
    exact fun covers pointer =>
      ⟨copy_mono le (covers pointer).1, copy_mono le (covers pointer).2⟩
  | _ => exact id

theorem addDirectCall_spec (library : LibraryModel) {I : PtrInstruction} (args : List PtrValue)
    {G : PtrFunction} (isDefined : G.isExternal = false) (body : A.BodyReady G)
    (result : I.pointerTy = true →
      G.returnsPointer = true ∧ ∃ n, A.getValueNodeFor (.instruction I.id) = some n)
    (actuals : ∀ v ∈ args, v.isPointerTy = true → ∃ n, A.getValueNodeFor v = some n) :
    ∃ A', A.addDirectCall library I args G = some A' ∧ A.Makes A' ∅ ∧
      (I.pointerTy = true →
        A'.Joined .COPY (A'.getValueNodeFor (.instruction I.id)) (A'.node (.ret G.id))) ∧
      ∀ pair ∈ G.args.zip args, A'.Passes pair := by
  obtain ⟨A₁, run₁, makes₁, done₁⟩ := onlyIf_spec (A := A) (c := I.pointerTy) (K := ∅)
    (f := fun A => do
      let retIndex ← A.getValueNodeFor (.instruction I.id)
      let fRetIndex ← A.getReturnNodeFor G.id
      return A.emplace .COPY retIndex fRetIndex)
    (D := fun A => A.Joined .COPY (A.getValueNodeFor (.instruction I.id)) (A.node (.ret G.id)))
    fun pointer => by
      obtain ⟨returns, n, found⟩ := result pointer
      obtain ⟨r, foundR⟩ := taken_iff.mp (body.result returns)
      have here : A.getReturnNodeFor G.id = some r := foundR
      exact ⟨A.emplace .COPY n r, by simp [found, here], makes_emplace ..,
        emplace_joined found (by rw [node_emplace]; exact foundR)⟩
  obtain ⟨A₂, run₂, makes₂, done₂⟩ := addArgumentConstraintForCall_spec args
    (bodyReady_mono makes₁.le body) fun v mem pointer => by
      obtain ⟨n, found⟩ := actuals v mem pointer
      exact ⟨n, value_mono makes₁.le found⟩
  refine ⟨A₂, ?_, makes_trans makes₁ makes₂, ?_, done₂⟩
  · unfold addDirectCall
    rw [if_neg (by simp [isDefined])]
    exact Option.bind_eq_some_iff.mpr ⟨A₁, run₁, run₂⟩
  · exact fun pointer => joined_mono makes₂.le (done₁ pointer) (fun _ => value_mono makes₂.le)
      (fun _ => node_mono makes₂.le)

theorem collectConstraintsForInstruction_spec (library : LibraryModel)
    (ready : A.OperandsReady M F) (defined : F ∈ M.functions) {I : PtrInstruction}
    (mem : I ∈ F.insts) (isPlain : I.isPlain M F = true)
    (free : .object (.instruction I.id) ∉ A.taken) :
    ∃ A', A.collectConstraintsForInstruction library M F I = some A' ∧
      A.Makes A' {.object (.instruction I.id)} ∧ A'.Covers M F I := by
  have self : I.pointerTy = true → ∃ n, A.getValueNodeFor (.instruction I.id) = some n :=
    fun pointer => taken_iff.mp (ready.insts I mem pointer)
  have operand : ∀ v ∈ I.op.operands, v.isPointerIn M F = true →
      ∃ n, A.getValueNodeFor v = some n := fun v isOperand pointer =>
    pointer_ready ready pointer fun f => address_taken_of_operand defined mem isOperand
  have none : ∀ {A' : Collection}, A.Makes A' ∅ → A.Makes A' {.object (.instruction I.id)} :=
    fun makes => makes_wider makes (Set.empty_subset _)
  unfold collectConstraintsForInstruction Covers
  unfold PtrInstruction.isPlain at isPlain
  revert isPlain operand
  cases I.op with
  | alloca =>
    intro pointer _
    obtain ⟨val, foundVal⟩ := self pointer
    obtain ⟨obj, A₁, run, new, makes⟩ := createObjectNode_spec free
    refine ⟨A₁.emplace .ADDR_OF val obj, ?_, makes_trans makes (makes_emplace ..), ?_⟩
    · simp [foundVal, run]
    · exact emplace_joined (value_mono makes.le foundVal) (by rw [node_emplace]; exact new)
  | call callee args =>
    cases callee with
    | indirect v => simp
    | direct f =>
      dsimp only
      intro isPlain operand
      split at isPlain
      · rename_i G found
        simp only [Bool.and_eq_true, List.all_eq_true] at isPlain
        obtain ⟨⟨isDefined, result⟩, plainArgs⟩ := isPlain
        have isDefined : G.isExternal = false := by simpa using isDefined
        have body := (ready.globals.functions G (List.mem_of_find?_eq_some found)).body isDefined
        obtain ⟨A', run, makes, result, passes⟩ := addDirectCall_spec library (I := I) args
          isDefined body
          (fun pointer => ⟨by simpa [pointer] using result, self pointer⟩)
          (fun v isArg pointer => operand v isArg
            (by simpa [PtrValue.isOperandIn, pointer] using plainArgs v isArg))
        refine ⟨A', ?_, none makes, ?_⟩
        · simp [addConstraintForCall, found, run]
        · intro G' found'
          rw [← Option.some.inj (found.symm.trans found')]
          exact ⟨result, passes⟩
      · cases isPlain
  | ret value =>
    cases value with
    | none => exact fun _ _ => ⟨A, rfl, makes_refl _, trivial⟩
    | some v =>
      intro isPlain operand
      simp only [Bool.and_eq_true] at isPlain
      apply onlyIf_spec
      intro pointer
      have returns : F.returnsPointer = true := by simpa [pointer] using isPlain.1
      obtain ⟨ret, foundRet⟩ := taken_iff.mp (ready.body.result returns)
      obtain ⟨val, foundVal⟩ := operand v (by simp [Operation.operands])
        (by simpa [PtrValue.isOperandIn, pointer] using isPlain.2)
      have here : A.getReturnNodeFor F.id = some ret := foundRet
      exact ⟨A.emplace .COPY ret val, by simp [here, foundVal], makes_emplace ..,
        emplace_joined (by rw [node_emplace]; exact foundRet) foundVal⟩
  | load p =>
    intro isPlain operand
    apply onlyIf_spec
    intro pointer
    obtain ⟨val, foundVal⟩ := self pointer
    obtain ⟨op, foundOp⟩ := operand p (by simp [Operation.operands]) isPlain
    exact ⟨A.emplace .LOAD val op, by simp [foundVal, foundOp], makes_emplace ..,
      emplace_joined foundVal foundOp⟩
  | store v p =>
    intro isPlain operand
    simp only [Bool.and_eq_true] at isPlain
    apply onlyIf_spec
    intro pointer
    obtain ⟨src, foundSrc⟩ := operand v (by simp [Operation.operands])
      (by simpa [PtrValue.isOperandIn, pointer] using isPlain.2)
    obtain ⟨dst, foundDst⟩ := operand p (by simp [Operation.operands]) isPlain.1
    exact ⟨A.emplace .STORE dst src, by simp [foundSrc, foundDst], makes_emplace ..,
      emplace_joined foundDst foundSrc⟩
  | getElementPtr base =>
    intro isPlain operand
    simp only [Bool.and_eq_true] at isPlain
    obtain ⟨A', run, makes, joined⟩ := copyValue_spec (self isPlain.1)
      (operand base (by simp [Operation.operands]) isPlain.2)
    exact ⟨A', by simp [isPlain.1, run], none makes, fun _ => joined⟩
  | phi incoming =>
    intro isPlain operand
    apply onlyIf_spec
    intro pointer
    have plainEdges : ∀ edge ∈ incoming, edge.2.isPointerIn M F = true := by
      simpa [pointer] using isPlain
    obtain ⟨A', run, makes, done⟩ := foldlM_emplaces (A := A)
      (f := fun A (edge : BlockId × PtrValue) => copyValue A (.instruction I.id) edge.2)
      (l := incoming) (D := fun edge A =>
        A.Joined .COPY (A.getValueNodeFor (.instruction I.id)) (A.getValueNodeFor edge.2))
      (fun edge isEdge B later => by
        obtain ⟨val, foundVal⟩ := self pointer
        obtain ⟨src, foundSrc⟩ := operand edge.2
          (List.mem_map.mpr ⟨edge, isEdge, rfl⟩) (plainEdges edge isEdge)
        exact copyValue_spec ⟨val, value_mono later foundVal⟩ ⟨src, value_mono later foundSrc⟩)
      (fun edge _ B B' le done => copy_mono le done)
    obtain ⟨val, foundVal⟩ := self pointer
    exact ⟨A', by simp [foundVal, run], none makes, done⟩
  | bitCast v =>
    intro isPlain operand
    apply onlyIf_spec
    intro pointer
    obtain ⟨A', run, makes, joined⟩ := copyValue_spec (self pointer)
      (operand v (by simp [Operation.operands]) (by simpa [pointer] using isPlain))
    exact ⟨A', run, none makes, joined⟩
  | select v w =>
    intro isPlain operand
    apply onlyIf_spec
    intro pointer
    simp only [pointer, Bool.not_true, Bool.false_or, Bool.and_eq_true] at isPlain
    obtain ⟨src1, found1⟩ := operand v (by simp [Operation.operands]) isPlain.1
    obtain ⟨src2, found2⟩ := operand w (by simp [Operation.operands]) isPlain.2
    obtain ⟨dst, foundDst⟩ := self pointer
    have first : (A.emplace .COPY dst src1).Joined .COPY (some dst) (some src1) :=
      emplace_joined rfl rfl
    refine ⟨(A.emplace .COPY dst src1).emplace .COPY dst src2, ?_, ?_, ?_, ?_⟩
    · simp [found1, found2, foundDst]
    · exact makes_trans (makes_emplace ..) (makes_emplace ..)
    · exact joined_mono (le_emplace ..) first (fun n same => foundDst.trans same)
        (fun n same => found1.trans same)
    · exact emplace_joined foundDst found2
  | branch targets => exact fun isPlain _ => ⟨A, by simpa using isPlain, makes_refl _, trivial⟩
  | other => exact fun isPlain _ => ⟨A, by simpa using isPlain, makes_refl _, trivial⟩
  | intToPtr v => simp
  | vaArg => simp
  | extractValue => simp
  | unsupported => simp

/-- The slots that the instructions of a function may take. -/
def instructionSlots (F : PtrFunction) : Set Slot :=
  ⋃ I ∈ F.insts, {.value (.instruction I.id), .object (.instruction I.id)}

theorem value_slot {I : PtrInstruction} (mem : I ∈ F.insts) :
    .value (.instruction I.id) ∈ instructionSlots F := Set.mem_biUnion mem (Or.inl rfl)

theorem object_slot {I : PtrInstruction} (mem : I ∈ F.insts) :
    .object (.instruction I.id) ∈ instructionSlots F := Set.mem_biUnion mem (Or.inr rfl)

theorem insts_nodup (defined : F ∈ M.functions) : (F.insts.map (·.id)).Nodup := by
  have insts := M.inst_nodup
  rw [List.map_flatMap, List.nodup_flatMap] at insts
  exact insts.1 F defined

theorem instructionSlots_apart (M : PtrModule) :
    M.functions.Pairwise fun F G => Disjoint (instructionSlots F) (instructionSlots G) := by
  have insts := M.inst_nodup
  rw [List.map_flatMap, List.nodup_flatMap] at insts
  refine insts.2.imp fun {F G} separate => ?_
  rw [Set.disjoint_left]
  intro k inF inG
  obtain ⟨I, memI, isI⟩ := Set.mem_iUnion₂.mp inF
  obtain ⟨J, memJ, isJ⟩ := Set.mem_iUnion₂.mp inG
  have same : I.id = J.id := by
    rcases isI with rfl | rfl <;> simpa using isJ
  exact separate (List.mem_map.mpr ⟨I, memI, rfl⟩) (List.mem_map.mpr ⟨J, memJ, same.symm⟩)

theorem addInstructionNode_spec {I : PtrInstruction}
    (free : .value (.instruction I.id) ∉ A.taken) :
    ∃ A', A.addInstructionNode I = some A' ∧ A.Makes A' {.value (.instruction I.id)} ∧
      (I.pointerTy = true → .value (.instruction I.id) ∈ A'.taken) := by
  apply onlyIf_spec
  intro _
  obtain ⟨n, A', run, new, makes⟩ := createValueNode_spec free
  exact ⟨A', by simp [run], makes, taken_iff.mpr ⟨n, new⟩⟩

theorem addInstructionNodes_spec (defined : F ∈ M.functions)
    (free : Disjoint A.taken (instructionSlots F)) :
    ∃ A', F.insts.foldlM addInstructionNode A = some A' ∧
      A.Makes A' (⋃ I ∈ F.insts, {.value (.instruction I.id)}) ∧
      ∀ I ∈ F.insts, I.pointerTy = true → .value (.instruction I.id) ∈ A'.taken := by
  obtain ⟨A', run, le, keys, done⟩ := foldlM_allocates (f := addInstructionNode) (l := F.insts)
    (s := A) (D := fun I A => I.pointerTy = true → .value (.instruction I.id) ∈ A.taken)
    (fun I _ B _ free => by
      obtain ⟨B', run, makes, done⟩ :=
        addInstructionNode_spec (Set.disjoint_singleton_right.mp free)
      exact ⟨B', run, makes.le, makes.taken, done⟩)
    (fun I _ B B' le done pointer => taken_mono le (done pointer))
    ((List.pairwise_map.mp (insts_nodup defined)).imp fun other => by simpa using other)
    (fun I mem => Set.disjoint_singleton_right.mpr (Set.disjoint_right.mp free (value_slot mem)))
  exact ⟨A', run, ⟨le, keys⟩, done⟩

theorem collectInstructions_spec (library : LibraryModel) (ready : A.OperandsReady M F)
    (defined : F ∈ M.functions) (isPlain : ∀ I ∈ F.insts, I.isPlain M F = true)
    (free : ∀ I ∈ F.insts, .object (.instruction I.id) ∉ A.taken) :
    ∃ A', F.insts.foldlM (collectConstraintsForInstruction library M F) A = some A' ∧
      A.Makes A' (⋃ I ∈ F.insts, {.object (.instruction I.id)}) ∧
      ∀ I ∈ F.insts, A'.Covers M F I := by
  obtain ⟨A', run, le, keys, done⟩ := foldlM_allocates
    (f := collectConstraintsForInstruction library M F) (l := F.insts) (s := A)
    (D := fun I A => A.Covers M F I)
    (fun I mem B later free => by
      obtain ⟨B', run, makes, covers⟩ := collectConstraintsForInstruction_spec library
        (operandsReady_mono later ready) defined mem (isPlain I mem)
        (Set.disjoint_singleton_right.mp free)
      exact ⟨B', run, makes.le, makes.taken, covers⟩)
    (fun I _ B B' le covers => covers_mono le covers)
    ((List.pairwise_map.mp (insts_nodup defined)).imp fun other => by simpa using other)
    (fun I mem => Set.disjoint_singleton_right.mpr (free I mem))
  exact ⟨A', run, ⟨le, keys⟩, done⟩

theorem collectConstraintsForFunction_spec (library : LibraryModel) (plain : M.Plain)
    (ready : A.GlobalsReady M) (defined : F ∈ M.functions)
    (free : Disjoint A.taken (instructionSlots F)) :
    ∃ A', A.collectConstraintsForFunction library M F = some A' ∧
      A.Makes A' (instructionSlots F) ∧
      (F.isExternal = false → A'.OperandsReady M F ∧ ∀ I ∈ F.insts, A'.Covers M F I) := by
  cases external : F.isExternal with
  | true =>
    refine ⟨A, by simp [collectConstraintsForFunction, onlyIf, external], makes_refl _, ?_⟩
    exact fun isDefined => nomatch isDefined
  | false =>
    obtain ⟨A₁, run₁, makes₁, nodes⟩ := addInstructionNodes_spec defined free
    have operands : A₁.OperandsReady M F := ⟨globalsReady_mono makes₁.le ready,
      bodyReady_mono makes₁.le ((ready.functions F defined).body external), nodes⟩
    obtain ⟨A₂, run₂, makes₂, covers⟩ := collectInstructions_spec library operands defined
      (plain.plain F defined external) fun I mem =>
        free_after makes₁ (Set.disjoint_right.mp free (object_slot mem)) (by simp)
    refine ⟨A₂, ?_, ?_, fun _ => ⟨operandsReady_mono makes₂.le operands, covers⟩⟩
    · simp only [collectConstraintsForFunction, onlyIf, external, Bool.not_false, if_true]
      exact Option.bind_eq_some_iff.mpr ⟨A₁, run₁, run₂⟩
    · apply makes_trans (makes_wider makes₁ _) (makes_wider makes₂ _)
      · intro k mem
        obtain ⟨I, inF, rfl⟩ := Set.mem_iUnion₂.mp mem
        exact value_slot inF
      · intro k mem
        obtain ⟨I, inF, rfl⟩ := Set.mem_iUnion₂.mp mem
        exact object_slot inF

structure Collected (M : PtrModule) (A : Collection) : Prop where
  globals : A.GlobalsCollected M
  operands : ∀ F ∈ M.functions, F.isExternal = false → A.OperandsReady M F
  covers : ∀ F ∈ M.functions, F.isExternal = false → ∀ I ∈ F.insts, A.Covers M F I

theorem collectConstraints_spec (library : LibraryModel) (plain : M.Plain) :
    ∃ A, collectConstraints library M = some A ∧ A.Collected M := by
  obtain ⟨A₁, run₁, _, unused, globals⟩ := collectConstraintsForGlobals_spec (A := initial) plain
    (Set.eq_empty_of_forall_notMem fun k => by cases k <;> simp [taken, node, initial, NodeMaps.start])
  obtain ⟨A₂, run₂, le, _, done⟩ := foldlM_allocates (T := taken)
    (f := collectConstraintsForFunction library M) (l := M.functions) (s := A₁)
    (D := fun F A => F.isExternal = false → A.OperandsReady M F ∧ ∀ I ∈ F.insts, A.Covers M F I)
    (fun F defined B later free => by
      obtain ⟨B', run, makes, done⟩ := collectConstraintsForFunction_spec library plain
        (globalsReady_mono later globals.ready) defined free
      exact ⟨B', run, makes.le, makes.taken, done⟩)
    (fun F _ B B' le done isDefined => by
      obtain ⟨operands, covers⟩ := done isDefined
      exact ⟨operandsReady_mono le operands, fun I mem => covers_mono le (covers I mem)⟩)
    (instructionSlots_apart M)
    (fun F _ => by
      rw [Set.disjoint_right]
      intro k mem
      obtain ⟨I, _, isI⟩ := Set.mem_iUnion₂.mp mem
      rcases isI with rfl | rfl
      · exact (unused I.id).1
      · exact (unused I.id).2)
  refine ⟨A₂, Option.bind_eq_some_iff.mpr ⟨A₁, run₁, run₂⟩, ?_, ?_, ?_⟩
  · constructor
    · exact globalsReady_mono le globals.ready
    · intro G mem c definitive leaf inLeaves
      exact joined_mono le (globals.initialised G mem c definitive leaf inLeaves)
        (fun _ => node_mono le) (fun _ => objectOfConstant_mono le)
  · exact fun F mem isDefined => (done F mem isDefined).1
  · exact fun F mem isDefined => (done F mem isDefined).2

end Collection
end ProgramSlicer.Andersen
