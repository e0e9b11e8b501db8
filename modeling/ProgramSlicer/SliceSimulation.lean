import ProgramSlicer.Interpreter

/-!
A function and what `sliceFunction` leaves of it, run side by side. Which set of
instructions is kept is open here: whatever is closed under what the kept ones
need is computed alike.
-/
namespace ProgramSlicer
open SlicedRuns ControlDependence FoldRules

section Sets
variable (marked : List NodePtr) (F : Function)

def KeepsBlock (b : BlockId) : Prop :=
  ∃ B ∈ F.blocks, B.id = b ∧ ∃ I ∈ B.insts, .inst I.id ∈ marked

def Decided (b : BlockId) : Prop :=
  ∃ B ∈ F.blocks, B.id = b ∧ ∃ T, B.getTerminator = some T ∧ .inst T.id ∈ marked

variable {V : Type} (J : Interpretation V)

def Interpretation.ReadsOrigin (i : InstId) : Prop :=
  ∃ path o o' vs, J.compute i path o vs ≠ J.compute i path o' vs

def ReadsOriginIn (b : BlockId) : Prop :=
  ∃ B ∈ F.blocks, B.id = b ∧ ∃ I ∈ B.insts, .inst I.id ∈ marked ∧ J.ReadsOrigin I.id

/-- The addresses at which a kept load may look. -/
def Watched (M : Module) (a : V) : Prop :=
  ∃ L ∈ M.insts, L.opcode = .load ∧ .inst L.id ∈ marked ∧
    ∃ q, L.loadPointer = some q ∧ J.mayAccess q a = true

def KeptEffect (observe : InstId → Bool) (I : Instruction) : Prop :=
  observe I.id = true ∨ I.opcode = .store ∧ .inst I.id ∈ marked

/-- A set of instructions that holds whatever the observed ones depend on. -/
structure SliceClosed (observe : InstId → Bool) (M : Module) : Prop where
  observed : ∀ I ∈ M.insts, observe I.id = true → .inst I.id ∈ marked
  operand : ∀ I ∈ M.insts, .inst I.id ∈ marked → ∀ j, .inst j ∈ I.operands → .inst j ∈ marked
  control : ∀ F ∈ M.functions, ∀ n b, KeepsBlock marked F n → DependsOn F.Edge n b →
    Decided marked F b
  memory : ∀ S ∈ M.insts, S.opcode = .store → ∀ p a, S.storePointer = some p →
    J.mayAccess p a = true → Watched marked J M a → .inst S.id ∈ marked
  callee : ∀ I ∈ M.insts, .inst I.id ∈ marked → I.opcode = .call → ∀ G ∈ M.functions,
    I.getCalledFunction = some G.id → ∀ R ∈ G.insts, R.opcode = .ret → .inst R.id ∈ marked
  calls : ∀ I ∈ M.insts, .inst I.id ∉ marked → I.opcode = .call → ∀ g,
    I.getCalledFunction = some g → ¬ Contains M.functions (KeptEffect marked observe) g
  origin : ∀ F ∈ M.functions, ∀ b c, F.Edge b c → ReadsOriginIn marked F J c → Decided marked F b

end Sets

/-- A function as it enters another one's call: kept, with what is left of its blocks. -/
def Provided (marked : List NodePtr) (M : Module) (fs : List Function) : Prop :=
  ∀ I ∈ M.insts, .inst I.id ∈ marked → I.opcode = .call → ∀ G ∈ M.functions,
    I.getCalledFunction = some G.id → fs.find? (·.id = G.id) = some (sliceFunction marked G)

/-- Two activations of one function that cannot be told apart by what is kept. -/
structure Alike {V : Type} (marked : List NodePtr) (watched : V → Prop) (σ σ' : Activation V) :
    Prop where
  regs : ∀ i, .inst i ∈ marked → σ'.regs i = σ.regs i
  args : σ'.args = σ.args
  path : σ'.path = σ.path
  memory : SameWatched watched σ.memory σ'.memory

section Instructions
variable {V : Type} {J : Interpretation V} {observe : InstId → Bool} {M : Module}
  {marked : List NodePtr} {watched : V → Prop} {σ σ' : Activation V}

theorem alike_skip (alike : Alike marked watched σ σ') {i : InstId} (skipped : .inst i ∉ marked)
    {r : Result V} (same : SameWatched watched σ.memory r.memory) :
    Alike marked watched (σ.assign i r) σ' where
  regs j kept := by
    have other : j ≠ i := fun eq => skipped (eq ▸ kept)
    simpa [Activation.assign, Function.update_of_ne other] using alike.regs j kept
  args := alike.args
  path := alike.path
  memory a seen := (alike.memory a seen).trans (same a seen).symm

theorem alike_assign (alike : Alike marked watched σ σ') (i : InstId) {r r' : Result V}
    (value : r'.value = r.value) (same : SameWatched watched r.memory r'.memory) :
    Alike marked watched (σ.assign i r) (σ'.assign i r') where
  regs j kept := by
    by_cases eq : j = i
    · simp [Activation.assign, eq, value]
    · simpa [Activation.assign, Function.update_of_ne eq] using alike.regs j kept
  args := alike.args
  path := alike.path
  memory := same

theorem alike_eval (alike : Alike marked watched σ σ') {v : Value}
    (kept : ∀ j, v = .inst j → .inst j ∈ marked) : σ'.eval J v = σ.eval J v := by
  cases v with
  | inst j => exact alike.regs j (kept j rfl)
  | arg a => exact congrFun alike.args a
  | func f => rfl
  | other k => rfl

variable (closed : SliceClosed marked J observe M)
include closed

theorem alike_operand (alike : Alike marked watched σ σ') {I : Instruction} (hI : I ∈ M.insts)
    (kept : .inst I.id ∈ marked) {v : Value} (used : v ∈ I.operands) :
    σ'.eval J v = σ.eval J v := by
  refine alike_eval alike fun j same => ?_
  exact closed.operand I hI kept j (same ▸ used)

theorem alike_operands (alike : Alike marked watched σ σ') {I : Instruction} (hI : I ∈ M.insts)
    (kept : .inst I.id ∈ marked) : σ'.operands J I = σ.operands J I :=
  List.map_congr_left fun _ used => alike_operand closed alike hI kept used

theorem alike_event (alike : Alike marked watched σ σ') {I : Instruction} (hI : I ∈ M.insts)
    (kept : .inst I.id ∈ marked) (v : V) : event J observe σ' I v = event J observe σ I v := by
  unfold event
  rw [alike_operands closed alike hI kept]

theorem skipped_quiet {I : Instruction} (hI : I ∈ M.insts) (skipped : .inst I.id ∉ marked) :
    ¬ Shows J observe (Watched marked J M) I := by
  rintro (seen | ⟨isStore, p, a, pointer, access, seen⟩)
  · exact skipped (closed.observed I hI seen)
  · exact skipped (closed.memory I hI isStore p a pointer access seen)

theorem terminate_follows (alike : Alike marked (Watched marked J M) σ σ') {T : Instruction}
    (hT : T ∈ M.insts) (kept : .inst T.id ∈ marked) :
    terminate J observe σ' T = terminate J observe σ T := by
  have value : T.operands.head?.map (σ'.eval J) = T.operands.head?.map (σ.eval J) := by
    cases first : T.operands.head? with
    | none => rfl
    | some v =>
      simp [alike_operand closed alike hT kept (List.mem_of_head? first)]
  unfold terminate
  rw [value, alike_event closed alike hT kept, alike_operands closed alike hT kept]

variable [DecidableEq V]

theorem skipped_calls (pure : J.ExternalsPure) (repair : BlockId → Option BlockId) (n : Nat)
    {I : Instruction} (hI : I ∈ M.insts) (skipped : .inst I.id ∉ marked) :
    QuietCalls (Watched marked J M) (callIn J observe repair M.functions n) I := by
  intro isCall f callee path vs m out r ran
  refine callIn_quiet pure n (fun inside => ?_) ran
  refine closed.calls I hI skipped isCall f callee (contains_mono ?_ inside)
  rintro F hF K hK (seen | ⟨isStore, p, a, pointer, access, seen⟩)
  · exact .inl seen
  · have hKM : K ∈ M.insts := mem_module_insts.mpr ⟨F, hF, hK⟩
    exact .inr ⟨isStore, closed.memory K hKM isStore p a pointer access seen⟩

def Answers (watched : V → Prop) (M : Module) (marked : List NodePtr) (call : Callee V)
    (right : Nat → Callee V) : Prop :=
  ∀ I ∈ M.insts, .inst I.id ∈ marked → I.opcode = .call → ∀ f, I.getCalledFunction = some f →
    ∀ path vs m m' out r, SameWatched watched m m' → call path f vs m = some (out, r) →
      ∃ d r', right d path f vs m' = some (out, r') ∧ r'.value = r.value ∧
        SameWatched watched r.memory r'.memory

theorem effect_follows {call : Callee V} {right : Nat → Callee V}
    (answers : Answers (Watched marked J M) M marked call right)
    (alike : Alike marked (Watched marked J M) σ σ') {I : Instruction} (hI : I ∈ M.insts)
    (kept : .inst I.id ∈ marked) (origin : J.ReadsOrigin I.id → σ'.origin = σ.origin)
    {out : List (Event V)} {r : Result V} (ran : effect J call σ I = some (out, r)) :
    ∃ d r', effect J (right d) σ' I = some (out, r') ∧ r'.value = r.value ∧
      SameWatched (Watched marked J M) r.memory r'.memory := by
  have operand : ∀ v ∈ I.operands, σ'.eval J v = σ.eval J v :=
    fun v used => alike_operand closed alike hI kept used
  unfold effect at ran ⊢
  cases kind : I.opcode with
  | load =>
    simp only [kind] at ran ⊢
    obtain ⟨p, pointer, ran⟩ := bind_some ran
    have address := operand p (List.mem_of_getElem? pointer)
    split at ran
    · rename_i access
      obtain ⟨rfl, rfl⟩ := Prod.mk.inj (Option.some.inj ran)
      refine ⟨0, ⟨σ'.memory (σ.eval J p), σ'.memory⟩, ?_, ?_, alike.memory⟩
      · simp [pointer, address, access]
      · exact alike.memory _ ⟨I, hI, kind, kept, p, pointer, access⟩
    · cases ran
  | store =>
    simp only [kind] at ran ⊢
    obtain ⟨v, stored, ran⟩ := bind_some ran
    obtain ⟨p, pointer, ran⟩ := bind_some ran
    have address := operand p (List.mem_of_getElem? pointer)
    have value := operand v (List.mem_of_getElem? stored)
    split at ran
    · rename_i access
      obtain ⟨rfl, rfl⟩ := Prod.mk.inj (Option.some.inj ran)
      refine ⟨0, ⟨J.undef, Function.update σ'.memory (σ.eval J p) (σ.eval J v)⟩, ?_, rfl, ?_⟩
      · simp [stored, pointer, address, value, access]
      · intro a seen
        by_cases here : a = σ.eval J p
        · simp [here]
        · simpa [Function.update_of_ne here] using alike.memory a seen
    · cases ran
  | call =>
    simp only [kind] at ran ⊢
    obtain ⟨f, callee, ran⟩ := bind_some ran
    have actuals : I.argOperands.map (σ'.eval J) = I.argOperands.map (σ.eval J) :=
      List.map_congr_left fun v used => operand v (List.dropLast_subset _ used)
    obtain ⟨d, r', answer, value, memory⟩ :=
      answers I hI kept kind f callee _ _ _ _ _ _ alike.memory ran
    refine ⟨d, r', ?_, value, memory⟩
    simp [callee, actuals, alike.path, answer]
  | ret | branch | other =>
    simp only [kind] at ran ⊢
    obtain ⟨v, computed, ran⟩ := bind_some ran
    obtain ⟨rfl, rfl⟩ := Prod.mk.inj (Option.some.inj ran)
    have sameValue : J.compute I.id σ.path σ'.origin (σ.operands J I) = some v := by
      by_cases reads : J.ReadsOrigin I.id
      · rw [origin reads]
        exact computed
      · rw [← computed]
        by_contra differ
        exact reads ⟨_, _, _, _, differ⟩
    refine ⟨0, ⟨v, σ'.memory⟩, ?_, rfl, alike.memory⟩
    simp [alike.path, alike_operands closed alike hI kept, sameValue]

/-- A block and what is left of it. The second run falls off the end where the
terminator is not kept. -/
theorem insts_follow {call : Callee V} {right : Nat → Callee V}
    (more : ∀ d e, d ≤ e → (right d).Within (right e))
    (answers : Answers (Watched marked J M) M marked call right)
    {T : Instruction} (hT : T ∈ M.insts) (last : T.isTerminator = true) {body : List Instruction}
    (inside : ∀ I ∈ body, I ∈ M.insts) (plain : ∀ I ∈ body, I.isTerminator = false)
    (quiet : ∀ I ∈ body, .inst I.id ∉ marked → QuietCalls (Watched marked J M) call I)
    (alike : Alike marked (Watched marked J M) σ σ')
    (origin : ∀ I ∈ body, .inst I.id ∈ marked → J.ReadsOrigin I.id → σ'.origin = σ.origin)
    {out : List (Event V)} {leave : Leave V} {τ : Activation V}
    (ran : execInsts J observe call (body ++ [T]) σ = some (out, leave, τ)) :
    ∃ d leave' τ', execInsts J observe (right d)
        ((body ++ [T]).filter fun I => .inst I.id ∈ marked) σ' = some (out, leave', τ') ∧
      Alike marked (Watched marked J M) τ τ' ∧
      if .inst T.id ∈ marked then leave' = leave else leave' = .fallOff := by
  induction body generalizing σ σ' out with
  | nil =>
    rw [List.nil_append, execInsts_last last] at ran
    obtain ⟨⟨seen, leave⟩, terminated, same⟩ := Option.map_eq_some_iff.mp ran
    obtain ⟨rfl, rfl, rfl⟩ := by simpa using same
    by_cases kept : .inst T.id ∈ marked
    · refine ⟨0, leave, σ', ?_, alike, by simp [kept]⟩
      simp [kept, execInsts_last last, terminate_follows closed alike hT kept, terminated]
    · obtain rfl := terminate_quiet (skipped_quiet closed hT kept) terminated
      exact ⟨0, .fallOff, σ', by simp [kept, execInsts], alike, by simp [kept]⟩
  | cons I body ih =>
    have hI := inside I (List.mem_cons_self ..)
    have notLast := plain I (List.mem_cons_self ..)
    have tail : ∀ {P : Instruction → Prop}, (∀ K ∈ I :: body, P K) → ∀ K ∈ body, P K :=
      fun all K hK => all K (List.mem_cons_of_mem I hK)
    obtain ⟨first, ρ, later, one, others, rfl⟩ := execInsts_cases notLast ran
    rw [List.cons_append]
    by_cases kept : .inst I.id ∈ marked
    · rw [List.filter_cons_of_pos (by simpa using kept)]
      obtain ⟨inner, r, effects, rfl, rfl⟩ := execInst_cases one
      obtain ⟨d, r', effects', value, memory⟩ := effect_follows closed answers alike hI kept
        (origin I (List.mem_cons_self ..) kept) effects
      obtain ⟨e, leave', τ', others', alike', leaves⟩ := ih (tail inside) (tail plain) (tail quiet)
        (alike_assign alike I.id value memory) (tail origin) others
      have one' : execInst J observe (right d) σ' I =
          some (inner ++ event J observe σ I r.value, σ'.assign I.id r') := by
        simp [execInst, effects', value, alike_event closed alike hI kept]
      refine ⟨max d e, leave', τ', ?_, alike', leaves⟩
      exact execInsts_cons notLast (execInst_within (more d _ (Nat.le_max_left d e)) one')
        (execInsts_within (more e _ (Nat.le_max_right d e)) others')
    · rw [List.filter_cons_of_neg (by simpa using kept)]
      obtain ⟨rfl, r, rfl, memory⟩ := execInst_quiet (skipped_quiet closed hI kept)
        (quiet I (List.mem_cons_self ..) kept) one
      exact ih (tail inside) (tail plain) (tail quiet) (alike_skip alike kept memory)
        (tail origin) others

end Instructions

/-- A block without terminator goes to a successor that is nearer to an exit, or returns
where there is none. -/
structure Repairs (F : Function) (repair : BlockId → Option BlockId) (rank : BlockId → Nat) :
    Prop where
  ends : ∀ B ∈ F.blocks, B.successors = [] → repair B.id = none
  nearer : ∀ B ∈ F.blocks, B.successors ≠ [] →
    ∃ c ∈ B.successors, repair B.id = some c ∧ rank c < rank B.id

def Module.Repaired (M : Module) (repair : BlockId → Option BlockId) : Prop :=
  ∀ F ∈ M.functions, ∃ rank, Repairs F repair rank

theorem exists_repaired {M : Module} (exits : ∀ F ∈ M.functions, ∀ b, ReachesExit F.Edge b) :
    ∃ repair, M.Repaired repair := by
  have ranks : ∀ F, ∃ rank : BlockId → Nat, F ∈ M.functions →
      ∀ b, Exit F.Edge b ∨ ∃ c, F.Edge b c ∧ rank c < rank b := by
    intro F
    by_cases hF : F ∈ M.functions
    · obtain ⟨rank, nearer⟩ := exists_rank (exits F hF)
      exact ⟨rank, fun _ => nearer⟩
    · exact ⟨fun _ => 0, fun inside => absurd inside hF⟩
  choose rank nearer using ranks
  have choices : ∀ b, ∃ next : Option BlockId, ∀ F ∈ M.functions, ∀ B ∈ F.blocks, B.id = b →
      (B.successors = [] → next = none) ∧ (B.successors ≠ [] →
        ∃ c ∈ B.successors, next = some c ∧ rank F c < rank F b) := by
    intro b
    cases known : M.block? b with
    | none =>
      refine ⟨none, fun F hF B hB same => ?_⟩
      have found := block_lookup.mpr ⟨mem_blocks.mpr ⟨F, hF, hB⟩, same⟩
      simp [known] at found
    | some B =>
      obtain ⟨hB, rfl⟩ := block_lookup.mp known
      obtain ⟨F, hF, hBF⟩ := mem_blocks.mp hB
      have only : ∀ G ∈ M.functions, ∀ C ∈ G.blocks, C.id = B.id → G = F ∧ C = B := by
        intro G hG C hC same
        obtain rfl := block_eq (mem_blocks.mpr ⟨G, hG, hC⟩) hB same
        exact ⟨block_function_eq hG hF hC hBF, rfl⟩
      rcases nearer F hF B.id with stop | ⟨c, ⟨C, hC, same, succ⟩, less⟩
      · have none : B.successors = [] :=
          List.eq_nil_iff_forall_not_mem.mpr fun c succ => stop c ⟨B, hBF, rfl, succ⟩
        refine ⟨.none, fun G hG C hC same => ?_⟩
        obtain ⟨rfl, rfl⟩ := only G hG C hC same
        exact ⟨fun _ => rfl, fun some => absurd none some⟩
      · obtain ⟨_, rfl⟩ := only F hF C hC same
        refine ⟨some c, fun G hG D hD same => ?_⟩
        obtain ⟨rfl, rfl⟩ := only G hG D hD same
        exact ⟨fun none => absurd (none ▸ succ) (by simp), fun _ => ⟨c, succ, rfl, less⟩⟩
  choose repair spec using choices
  exact ⟨repair, fun F hF => ⟨rank F, fun B hB => (spec B.id F hF B hB rfl).1,
    fun B hB => (spec B.id F hF B hB rfl).2⟩⟩

section Blocks
variable {V : Type} {J : Interpretation V} {observe : InstId → Bool} {M : Module}
  {marked : List NodePtr} {F : Function} (hF : F ∈ M.functions)
include hF

theorem find_block {B : BasicBlock} (hB : B ∈ F.blocks) :
    F.blocks.find? (·.id = B.id) = some B := by
  cases found : F.blocks.find? (·.id = B.id) with
  | none => simpa using List.find?_eq_none.mp found B hB
  | some C =>
    have same : C.id = B.id := by simpa using List.find?_some found
    have hC := List.mem_of_find?_eq_some found
    rw [block_eq (mem_blocks.mpr ⟨F, hF, hC⟩) (mem_blocks.mpr ⟨F, hF, hB⟩) same]

theorem same_block {B C : BasicBlock} (hB : B ∈ F.blocks) (hC : C ∈ F.blocks)
    (same : C.id = B.id) : C = B :=
  block_eq (mem_blocks.mpr ⟨F, hF, hC⟩) (mem_blocks.mpr ⟨F, hF, hB⟩) same

theorem find_sliced {B : BasicBlock} (hB : B ∈ F.blocks) :
    (sliceFunction marked F).blocks.find? (·.id = B.id) = some (sliceBlock marked B) := by
  have found := find_block hF hB
  simp only [sliceFunction, List.find?_map]
  rw [show ((fun C : BasicBlock => decide (C.id = B.id)) ∘ sliceBlock marked) =
    fun C => decide (C.id = B.id) from rfl, found]
  rfl

omit hF in
theorem edge_of_successor {B : BasicBlock} (hB : B ∈ F.blocks) {T : Instruction}
    (term : B.getTerminator = some T) {c : BlockId} (succ : c ∈ T.succs) : F.Edge B.id c :=
  ⟨B, hB, rfl, by simpa [BasicBlock.successors, term] using succ⟩

theorem exit_of_noSuccessors {B : BasicBlock} (hB : B ∈ F.blocks) (none : B.successors = []) :
    Exit F.Edge B.id := by
  rintro c ⟨C, hC, same, succ⟩
  rw [same_block hF hB hC same, none] at succ
  cases succ

theorem exit_of_return {B : BasicBlock} (hB : B ∈ F.blocks) {T : Instruction}
    (term : B.getTerminator = some T) (noSucc : T.succs = []) :
    B.successors = [] ∧ Exit F.Edge B.id := by
  have none : B.successors = [] := by simp [BasicBlock.successors, term, noSucc]
  exact ⟨none, exit_of_noSuccessors hF hB none⟩

theorem decided_iff {B : BasicBlock} (hB : B ∈ F.blocks) {T : Instruction}
    (term : B.getTerminator = some T) : Decided marked F B.id ↔ .inst T.id ∈ marked := by
  constructor
  · rintro ⟨C, hC, same, U, termU, kept⟩
    rw [same_block hF hB hC same, term] at termU
    exact Option.some.inj termU ▸ kept
  · intro kept
    exact ⟨B, hB, rfl, T, term, kept⟩

omit hF in
theorem keeps_of_decided {b : BlockId} (decided : Decided marked F b) : KeepsBlock marked F b := by
  obtain ⟨B, hB, same, T, term, kept⟩ := decided
  exact ⟨B, hB, same, T, (terminator_mem term).1, kept⟩

omit hF in
theorem sliced_empty {B : BasicBlock} (hB : B ∈ F.blocks) (skipped : ¬ KeepsBlock marked F B.id) :
    (sliceBlock marked B).insts = [] := by
  refine List.filter_eq_nil_iff.mpr fun I hI => ?_
  simp only [decide_eq_true_eq]
  exact fun kept => skipped ⟨B, hB, rfl, I, hI, kept⟩

omit hF in
theorem keeps_of_reads {b : BlockId} (reads : ReadsOriginIn marked F J b) :
    KeepsBlock marked F b := by
  obtain ⟨B, hB, same, I, hI, kept, _⟩ := reads
  exact ⟨B, hB, same, I, hI, kept⟩

variable [DecidableEq V]

theorem skipped_passes {repair : BlockId → Option BlockId} {call : Callee V} {B : BasicBlock}
    (hB : B ∈ F.blocks) (skipped : ¬ KeepsBlock marked F B.id) {σ : Activation V} :
    blockStep J observe repair (sliceFunction marked F) call B.id σ =
      some ([], leaveBlock J repair B.id σ .fallOff) := by
  simp [blockStep, find_sliced hF hB, sliced_empty hB skipped, execInsts]

theorem blockStep_cases (verified : M.Verified) {repair : BlockId → Option BlockId}
    {call : Callee V} {b : BlockId} {σ : Activation V} {out : List (Event V)}
    {after : After BlockId (Activation V) (Result V)}
    (ran : blockStep J observe repair F call b σ = some (out, after)) :
    ∃ B ∈ F.blocks, B.id = b ∧ ∃ T leave τ, B.getTerminator = some T ∧
      execInsts J observe call B.insts σ = some (out, leave, τ) ∧
      after = leaveBlock J repair b τ leave ∧
      ((T.opcode = .ret ∧ ∃ v, leave = .ret v) ∨ ∃ c ∈ T.succs, leave = .jump c) := by
  obtain ⟨B, found, ran⟩ := bind_some ran
  obtain ⟨⟨first, leave, τ⟩, insts, same⟩ := bind_some ran
  obtain ⟨rfl, rfl⟩ := Prod.mk.inj (Option.some.inj same)
  have hB := List.mem_of_find?_eq_some found
  have hBM : B ∈ M.blocks := mem_blocks.mpr ⟨F, hF, hB⟩
  obtain ⟨T, term, split⟩ := terminator_last verified hBM
  refine ⟨B, hB, by simpa using List.find?_some found, T, leave, τ, term, insts, rfl, ?_⟩
  rw [split] at insts
  exact execInsts_leave (terminator_mem term).2 (verified.terminated B hBM).2 insts

end Blocks

structure Related {V : Type} (J : Interpretation V) (M : Module) (marked : List NodePtr)
    (F : Function) (b : BlockId) (σ : Activation V) (b' : BlockId) (σ' : Activation V) : Prop where
  inside : ∃ B ∈ F.blocks, B.id = b'
  alike : Alike marked (Watched marked J M) σ σ'
  origin : ReadsOriginIn marked F J b ∨ ReadsOriginIn marked F J b' →
    b = b' ∧ σ'.origin = σ.origin

/-- The caller sees no difference, if it looks at the value only where every return is kept. -/
def SameResult {V : Type} (J : Interpretation V) (M : Module) (marked : List NodePtr)
    (F : Function) (r r' : Result V) : Prop :=
  SameWatched (Watched marked J M) r.memory r'.memory ∧
    ((∀ R ∈ F.insts, R.opcode = .ret → .inst R.id ∈ marked) → r'.value = r.value)

section Runs
variable {V : Type} [DecidableEq V] {J : Interpretation V} {observe : InstId → Bool} {M : Module}
  {marked : List NodePtr} (closed : SliceClosed marked J observe M) (pure : J.ExternalsPure)
  (verified : M.Verified) (returns : M.ReturnsLeave)
include closed

omit [DecidableEq V] in
theorem decisionsKept {F : Function} (hF : F ∈ M.functions) :
    DecisionsKept F.Edge (KeepsBlock marked F) (Decided marked F) where
  kept _ := keeps_of_decided
  depends := closed.control F hF

include pure verified

/-- Every block, whichever of its instructions are kept. -/
theorem block_follows {own : BlockId → Option BlockId} {n : Nat} {right : Nat → Callee V}
    (more : ∀ d e, d ≤ e → (right d).Within (right e))
    (answers : Answers (Watched marked J M) M marked (callIn J observe own M.functions n) right)
    {F : Function} (hF : F ∈ M.functions) {B : BasicBlock} (hB : B ∈ F.blocks) {T : Instruction}
    (term : B.getTerminator = some T) {σ σ' : Activation V}
    (alike : Alike marked (Watched marked J M) σ σ')
    (origin : ReadsOriginIn marked F J B.id → σ'.origin = σ.origin) {out : List (Event V)}
    {leave : Leave V} {τ : Activation V}
    (ran : execInsts J observe (callIn J observe own M.functions n) B.insts σ =
      some (out, leave, τ)) :
    ∃ d leave' τ', execInsts J observe (right d) (sliceBlock marked B).insts σ' =
        some (out, leave', τ') ∧ Alike marked (Watched marked J M) τ τ' ∧
      if .inst T.id ∈ marked then leave' = leave else leave' = .fallOff := by
  have hBM : B ∈ M.blocks := mem_blocks.mpr ⟨F, hF, hB⟩
  obtain ⟨T', term', split⟩ := terminator_last verified hBM
  obtain rfl := Option.some.inj (term.symm.trans term')
  obtain ⟨inB, last⟩ := terminator_mem term
  have inside : ∀ I ∈ B.insts.dropLast, I ∈ B.insts := List.dropLast_subset _
  have inM : ∀ I ∈ B.insts, I ∈ M.insts := fun I hI => insts_of_block hBM hI
  rw [split] at ran
  unfold sliceBlock
  simp only
  rw [split]
  refine insts_follow closed more answers (inM T inB) last (fun I hI => inM I (inside I hI))
    (verified.terminated B hBM).2 (fun I hI skipped => ?_) alike (fun I hI kept reads => ?_) ran
  · exact skipped_calls closed pure own n (inM I (inside I hI)) skipped
  · exact origin ⟨B, hB, rfl, I, inside I hI, kept, reads⟩

omit [DecidableEq V] pure verified in
theorem skipped_source {F : Function} (hF : F ∈ M.functions) {b c : BlockId}
    (skipped : ¬ KeepsBlock marked F b) (edge : F.Edge b c) : ¬ ReadsOriginIn marked F J c :=
  fun reads => skipped (keeps_of_decided (closed.origin F hF b c edge reads))

omit [DecidableEq V] pure in
theorem onward {F : Function} (hF : F ∈ M.functions) {b c c' : BlockId} {τ τ' : Activation V}
    (alike : Alike marked (Watched marked J M) τ τ') (edge : F.Edge b c) (edge' : F.Edge b c')
    (decision : Decided marked F b → c = c') :
    Matched F.Edge (Decided marked F) (Related J M marked F) (SameResult J M marked F) b
      (.goOn c { τ with origin := some b }) (.goOn c' { τ' with origin := some b }) := by
  obtain ⟨C, hC, same, succ⟩ := edge'
  refine ⟨edge, ⟨C, hC, same, succ⟩, decision, verified.successor_local F hF C hC c' succ,
    ⟨alike.regs, alike.args, alike.path, alike.memory⟩, ?_⟩
  rintro (reads | reads)
  · exact ⟨decision (closed.origin F hF b c edge reads), rfl⟩
  · exact ⟨decision (closed.origin F hF b c' ⟨C, hC, same, succ⟩ reads), rfl⟩

omit pure in
theorem approaches {repair : BlockId → Option BlockId} {rank : BlockId → Nat}
    {right : Nat → Callee V} {F : Function} (hF : F ∈ M.functions) (repairs : Repairs F repair rank)
    {b b' : BlockId} {σ σ' : Activation V} (skipped : ¬ KeepsBlock marked F b')
    (rel : Related J M marked F b σ b' σ') :
    (Exit F.Edge b' ∧ ∃ d r', blockStep J observe repair (sliceFunction marked F) (right d) b' σ' =
        some ([], .done r')) ∨
      ∃ d c τ, blockStep J observe repair (sliceFunction marked F) (right d) b' σ' =
        some ([], .goOn c τ) ∧ F.Edge b' c ∧ rank c < rank b' ∧ Related J M marked F b σ c τ := by
  obtain ⟨B, hB, rfl⟩ := rel.inside
  by_cases last : B.successors = []
  · refine .inl ⟨exit_of_noSuccessors hF hB last, 0, ⟨J.undef, σ'.memory⟩, ?_⟩
    rw [skipped_passes hF hB skipped]
    simp [leaveBlock, repairs.ends B hB last]
  · obtain ⟨c, succ, next, less⟩ := repairs.nearer B hB last
    have edge : F.Edge B.id c := ⟨B, hB, rfl, succ⟩
    refine .inr ⟨0, c, { σ' with origin := some B.id }, ?_, edge, less, ?_⟩
    · rw [skipped_passes hF hB skipped]
      simp [leaveBlock, next]
    · refine ⟨verified.successor_local F hF B hB c succ,
        ⟨rel.alike.regs, rel.alike.args, rel.alike.path, rel.alike.memory⟩, ?_⟩
      rintro (reads | reads)
      · have here := (rel.origin (.inl reads)).1
        exact absurd (keeps_of_reads (here ▸ reads)) skipped
      · exact absurd reads (skipped_source closed hF skipped edge)

section Block
variable {own repair : BlockId → Option BlockId} {rank : BlockId → Nat} {n : Nat}
  {right : Nat → Callee V} (more : ∀ d e, d ≤ e → (right d).Within (right e))
  (answers : Answers (Watched marked J M) M marked (callIn J observe own M.functions n) right)
  {F : Function} (hF : F ∈ M.functions)
include more answers hF

theorem skipped_block {b b' : BlockId} {σ σ' : Activation V} {out : List (Event V)}
    {after : After BlockId (Activation V) (Result V)} (skipped : ¬ KeepsBlock marked F b)
    (rel : Related J M marked F b σ b' σ')
    (ran : blockStep J observe own F (callIn J observe own M.functions n) b σ = some (out, after)) :
    ∃ B ∈ F.blocks, B.id = b ∧ ∃ T leave τ, B.getTerminator = some T ∧
      out = [] ∧ after = leaveBlock J own b τ leave ∧ Alike marked (Watched marked J M) τ σ' ∧
      ((T.opcode = .ret ∧ ∃ v, leave = .ret v) ∨ ∃ c ∈ T.succs, leave = .jump c) := by
  obtain ⟨B, hB, rfl, T, leave, τ, term, insts, after, leaves⟩ := blockStep_cases hF verified ran
  obtain ⟨d, leave', τ', insts', alike, _⟩ := block_follows closed pure verified more answers hF
    hB term rel.alike (fun reads => absurd (keeps_of_reads reads) skipped) insts
  rw [sliced_empty hB skipped] at insts'
  obtain ⟨rfl, _, rfl⟩ := by simpa [execInsts] using insts'
  exact ⟨B, hB, rfl, T, leave, τ, term, rfl, after, alike, leaves⟩

theorem skips {b b' c : BlockId} {σ σ' τ : Activation V} {out : List (Event V)}
    (skipped : ¬ KeepsBlock marked F b) (rel : Related J M marked F b σ b' σ')
    (ran : blockStep J observe own F (callIn J observe own M.functions n) b σ =
      some (out, .goOn c τ)) : out = [] ∧ F.Edge b c ∧ Related J M marked F c τ b' σ' := by
  obtain ⟨B, hB, rfl, T, leave, ρ, term, rfl, after, alike, leaves⟩ :=
    skipped_block closed pure verified more answers hF skipped rel ran
  rcases leaves with ⟨_, v, rfl⟩ | ⟨c', succ, rfl⟩
  · cases after
  · obtain ⟨rfl, rfl⟩ := After.goOn.inj after
    have edge := edge_of_successor hB term succ
    refine ⟨rfl, edge, rel.inside, ⟨alike.regs, alike.args, alike.path, alike.memory⟩, ?_⟩
    rintro (reads | reads)
    · exact absurd reads (skipped_source closed hF skipped edge)
    · have here := (rel.origin (.inr reads)).1
      exact absurd (keeps_of_reads (here ▸ reads)) skipped

include returns

theorem stops {b b' : BlockId} {σ σ' : Activation V} {out : List (Event V)} {r : Result V}
    (skipped : ¬ KeepsBlock marked F b) (rel : Related J M marked F b σ b' σ')
    (ran : blockStep J observe own F (callIn J observe own M.functions n) b σ =
      some (out, .done r)) : out = [] ∧ Exit F.Edge b ∧ ∀ d out' r', ¬ KeepsBlock marked F b' →
        blockStep J observe repair (sliceFunction marked F) (right d) b' σ' =
          some (out', .done r') → SameResult J M marked F r r' := by
  obtain ⟨B, hB, rfl, T, leave, ρ, term, rfl, after, alike, leaves⟩ :=
    skipped_block closed pure verified more answers hF skipped rel ran
  rcases leaves with ⟨isRet, v, rfl⟩ | ⟨c', _, rfl⟩
  · obtain rfl := After.done.inj after
    have inB := (terminator_mem term).1
    have hT : T ∈ M.insts := insts_of_block (mem_blocks.mpr ⟨F, hF, hB⟩) inB
    refine ⟨rfl, (exit_of_return hF hB term (returns T hT isRet)).2, ?_⟩
    intro d out' r' skipped' ran'
    obtain ⟨B', hB', rfl⟩ := rel.inside
    rw [skipped_passes hF hB' skipped'] at ran'
    have ends := (Prod.mk.inj (Option.some.inj ran')).2
    constructor
    · intro a seen
      rw [leaveBlock_memory.2 r' ends]
      exact alike.memory a seen
    · intro all
      exact absurd ⟨B, hB, rfl, T, inB, all T (mem_insts.mpr ⟨B, hB, inB⟩) isRet⟩ skipped
  · cases after

variable (repairs : Repairs F repair rank)
include repairs

theorem kept_block {b : BlockId} {σ σ' : Activation V} {out : List (Event V)}
    {after : After BlockId (Activation V) (Result V)} (rel : Related J M marked F b σ b σ')
    (ran : blockStep J observe own F (callIn J observe own M.functions n) b σ = some (out, after)) :
    ∃ d after', blockStep J observe repair (sliceFunction marked F) (right d) b σ' =
        some (out, after') ∧
      Matched F.Edge (Decided marked F) (Related J M marked F) (SameResult J M marked F) b after
        after' := by
  obtain ⟨B, hB, rfl, T, leave, ρ, term, insts, rfl, leaves⟩ := blockStep_cases hF verified ran
  have inB := (terminator_mem term).1
  have hT : T ∈ M.insts := insts_of_block (mem_blocks.mpr ⟨F, hF, hB⟩) inB
  obtain ⟨d, leave', ρ', insts', alike, same⟩ := block_follows closed pure verified more answers
    hF hB term rel.alike (fun reads => (rel.origin (.inl reads)).2) insts
  refine ⟨d, leaveBlock J repair B.id ρ' leave', ?_, ?_⟩
  · simp [blockStep, find_sliced hF hB, insts']
  rcases leaves with ⟨isRet, v, rfl⟩ | ⟨c, succ, rfl⟩
  · split at same
    · rw [same]
      exact ⟨alike.memory, fun _ => rfl⟩
    · rename_i dropped
      have last := (exit_of_return hF hB term (returns T hT isRet)).1
      rw [same]
      simp only [leaveBlock, repairs.ends B hB last]
      refine ⟨alike.memory, fun all => ?_⟩
      exact absurd (all T (mem_insts.mpr ⟨B, hB, inB⟩) isRet) dropped
  · have edge := edge_of_successor hB term succ
    split at same
    · rw [same]
      exact onward closed verified hF alike edge edge fun _ => rfl
    · rename_i dropped
      have some : B.successors ≠ [] := by
        intro none
        rw [BasicBlock.successors, term] at none
        exact absurd succ (by simp_all)
      obtain ⟨c', succ', next, _⟩ := repairs.nearer B hB some
      rw [same]
      simp only [leaveBlock, next]
      exact onward closed verified hF alike edge ⟨B, hB, rfl, succ'⟩ fun taken =>
        absurd ((decided_iff hF hB term).mp taken) dropped

theorem follows : Follows F.Edge (KeepsBlock marked F) (Decided marked F) rank
    (blockStep J observe own F (callIn J observe own M.functions n))
    (fun d => blockStep J observe repair (sliceFunction marked F) (right d))
    (Related J M marked F) (SameResult J M marked F) where
  monotone := blockStep_monotone more
  skips skipped rel ran := skips closed pure verified more answers hF skipped rel ran
  stops skipped rel ran := stops closed pure verified returns more answers hF skipped rel ran
  approaches skipped rel := approaches closed verified hF repairs skipped rel
  both _ rel ran := kept_block closed pure verified returns more answers hF repairs rel ran

end Block

include returns
variable (exits : ∀ F ∈ M.functions, ∀ b, ReachesExit F.Edge b)
include exits

/-- A call that comes through also does on what is left, and the same has been observed. -/
theorem callIn_follows {own repair : BlockId → Option BlockId}
    (repaired : M.Repaired repair) {fs : List Function}
    (provided : Provided marked M fs) (n : Nat) {F : Function} (hF : F ∈ M.functions)
    (there : fs.find? (·.id = F.id) = some (sliceFunction marked F)) {path : List InstId}
    {vs : List V} {m m' : Memory V} (agree : SameWatched (Watched marked J M) m m')
    {out : List (Event V)} {r : Result V}
    (ran : callIn J observe own M.functions n path F.id vs m = some (out, r)) :
    ∃ k r', callIn J observe repair fs k path F.id vs m' = some (out, r') ∧
      SameResult J M marked F r r' := by
  induction n generalizing F path vs m m' out r with
  | zero => cases ran
  | succ n ih =>
    obtain ⟨G, found, rest⟩ := callIn_cases ran
    have same : G = F := by
      have hG := List.mem_of_find?_eq_some found
      exact function_eq hG hF (by simpa using List.find?_some found)
    rcases rest with ⟨declared, v, m'', result, done⟩ | ⟨B, first, ran⟩
    · obtain ⟨g, known⟩ := pure
      rw [known] at result
      obtain ⟨w, value, both⟩ := Option.map_eq_some_iff.mp result
      obtain ⟨rfl, rfl⟩ := Prod.mk.inj both
      obtain ⟨rfl, rfl⟩ := Prod.mk.inj done
      refine ⟨1, ⟨w, m'⟩, callIn_external there ?_ ?_, agree, fun _ => rfl⟩
      · simp [sliceFunction, ← same, declared]
      · rw [known, value]
        rfl
    · rw [same] at first ran
      have hB : B ∈ F.blocks := List.mem_of_head? first
      have answers : Answers (Watched marked J M) M marked (callIn J observe own M.functions n)
          (callIn J observe repair fs) := by
        intro I hI kept isCall f callee path vs m m' out r agree inner
        obtain ⟨K, known⟩ : ∃ K, M.function? f = some K := by
          cases n with
          | zero => cases inner
          | succ n =>
            obtain ⟨K, known, _⟩ := callIn_cases inner
            exact ⟨K, known⟩
        obtain ⟨hK, rfl⟩ := function_lookup.mp known
        obtain ⟨k, r', answer, memory, value⟩ := ih hK (provided I hI kept isCall K hK callee)
          agree inner
        exact ⟨k, r', answer, value (closed.callee I hI kept isCall K hK callee), memory⟩
      have start : Related J M marked F B.id (enter J F path vs m) B.id
          (enter J (sliceFunction marked F) path vs m') :=
        ⟨⟨B, hB, rfl⟩, ⟨fun _ _ => rfl, rfl, rfl, agree⟩, fun _ => ⟨rfl, rfl⟩⟩
      obtain ⟨rank, repairs⟩ := repaired F hF
      obtain ⟨r', ⟨d, k, ran'⟩, same'⟩ := follows_run
        (follows closed pure verified returns (callIn_more fs) answers hF repairs)
        (decisionsKept closed hF) (exits F hF) ran start (fun _ => Iff.rfl)
      refine ⟨max d k + 1, r', ?_, same'⟩
      have first' : (sliceFunction marked F).blocks.head? = some (sliceBlock marked B) := by
        simp [sliceFunction, first]
      rw [callIn_body there first']
      exact run_more (fun b σ x => blockStep_within (callIn_more fs d _ (Nat.le_max_left d k)))
        (Nat.le_max_right d k) ran'

end Runs

theorem find_sliceFunction {M : Module} (marked : List NodePtr) {F : Function}
    (hF : F ∈ M.functions) :
    (M.functions.map (sliceFunction marked)).find? (·.id = F.id) =
      some (sliceFunction marked F) := by
  have found : M.functions.find? (·.id = F.id) = some F := function_lookup.mpr ⟨hF, rfl⟩
  rw [List.find?_map, show ((fun G : Function => decide (G.id = F.id)) ∘ sliceFunction marked) =
    fun G => decide (G.id = F.id) from rfl, found]
  rfl

theorem changes_unseen {V : Type} [DecidableEq V] {J J' : Interpretation V}
    {observe : InstId → Bool} {M : Module} {marked : List NodePtr}
    (closed : SliceClosed marked J observe M) (closed' : SliceClosed marked J' observe M)
    (pure : J.ExternalsPure) (verified : M.Verified) (returns : M.ReturnsLeave)
    (exits : ∀ F ∈ M.functions, ∀ b, ReachesExit F.Edge b) {changed : InstId → Prop}
    (same : J.SameOff J' changed) (apart : ∀ I ∈ M.insts, .inst I.id ∈ marked → ¬ changed I.id)
    {F : Function} (hF : F ∈ M.functions) {own : BlockId → Option BlockId} {n n' : Nat}
    {path : List InstId} {vs : List V} {m : Memory V} {trace trace' : List (Event V)}
    {r r' : Result V}
    (ran : callIn J observe own M.functions n path F.id vs m = some (trace, r))
    (ran' : callIn J' observe own M.functions n' path F.id vs m = some (trace', r')) :
    trace' = trace ∧
      ((∀ R ∈ F.insts, R.opcode = .ret → .inst R.id ∈ marked) → r'.value = r.value) := by
  have pure' : J'.ExternalsPure := by
    obtain ⟨g, known⟩ := pure
    exact ⟨g, by rw [same.external]; exact known⟩
  obtain ⟨repair, repaired⟩ := exists_repaired exits
  have provided : Provided marked M (M.functions.map (sliceFunction marked)) :=
    fun _ _ _ _ G hG _ => find_sliceFunction marked hG
  obtain ⟨k, w, left, _, value⟩ := callIn_follows closed pure verified returns exits repaired
    provided n hF (find_sliceFunction marked hF) (fun _ _ => rfl) ran
  obtain ⟨k', w', right, _, value'⟩ := callIn_follows closed' pure' verified returns exits repaired
    provided n' hF (find_sliceFunction marked hF) (fun _ _ => rfl) ran'
  have old : ∀ G ∈ M.functions.map (sliceFunction marked), ∀ I ∈ G.insts, ¬ changed I.id := by
    intro G hG I hI
    obtain ⟨F, hF, rfl⟩ := List.mem_map.mp hG
    obtain ⟨hIF, kept⟩ := mem_sliceFunction.mp hI
    exact apart I (mem_module_insts.mpr ⟨F, hF, hIF⟩) kept
  rw [callIn_sameOff same old] at right
  have more := callIn_more _ k _ (Nat.le_max_left k k') _ _ _ _ _ left
  have more' := callIn_more _ k' _ (Nat.le_max_right k k') _ _ _ _ _ right
  obtain ⟨rfl, rfl⟩ := Prod.mk.inj (Option.some.inj (more'.symm.trans more))
  exact ⟨rfl, fun kept => (value' kept).symm.trans (value kept)⟩

end ProgramSlicer
