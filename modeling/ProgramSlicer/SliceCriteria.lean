import ProgramSlicer.SliceConf

/-!
What `readInit` makes of a file that lists entries: which of them it inserts, which
nodes it marks for them, and with which bounds.
-/
namespace ProgramSlicer
open FormattedInput FoldRules

structure Gap where
  text : List Char
  nonempty : text ≠ []
  blank : Blank text

theorem Gap.starts (g : Gap) (rest : List Char) :
    ∃ c tail, g.text ++ rest = c :: tail ∧ isSpace c = true := by
  obtain ⟨text, nonempty, blank⟩ := g
  obtain ⟨c, tail, rfl⟩ := List.exists_cons_of_ne_nil nonempty
  exact ⟨c, tail ++ rest, rfl, blank c (by simp)⟩

theorem Gap.stops (g : Gap) (rest : List Char) :
    ∃ c tail, g.text ++ rest = c :: tail ∧ c.isDigit = false := by
  obtain ⟨c, tail, split, space⟩ := g.starts rest
  refine ⟨c, tail, split, ?_⟩
  by_contra digit
  rw [digit_not_space (by simpa using digit)] at space
  cases space

structure Line where
  name : List Char
  number : Numeral
  lower : Numeral
  upper : Numeral
  nonempty : name ≠ []
  solid : ∀ c ∈ name, isSpace c = false
  afterName : Gap
  afterNumber : Gap
  afterLower : Gap

namespace Line

def fromUpper (l : Line) (rest : List Char) : List Char :=
  l.afterLower.text ++ (l.upper.text ++ rest)

def fromLower (l : Line) (rest : List Char) : List Char :=
  l.afterNumber.text ++ (l.lower.text ++ l.fromUpper rest)

def fromNumber (l : Line) (rest : List Char) : List Char :=
  l.afterName.text ++ (l.number.text ++ l.fromLower rest)

def text (l : Line) (rest : List Char) : List Char := l.name ++ l.fromNumber rest

def bounds (l : Line) : Int × Int := (l.lower.value, l.upper.value)

/-- The numbers that more text follows on any line. -/
def FitsBefore (l : Line) : Prop := FitsInt l.number.value ∧ FitsInt l.lower.value

end Line

/-- One entry on each line, with or without a newline after the last. -/
def written : List Line → Bool → List Char
  | [], _ => []
  | [l], false => l.text []
  | l :: ls, newline => l.text ('\n' :: written ls newline)

def inserted (lines : List Line) (newline : Bool) : List Line :=
  if newline then lines else lines.dropLast

/-- Every number that more text follows is an `int`. -/
structure Fits (lines : List Line) (newline : Bool) : Prop where
  before : ∀ l ∈ lines, l.FitsBefore
  upper : ∀ l ∈ inserted lines newline, FitsInt l.upper.value

section Line
variable (l : Line) {lead rest : List Char} (skipped : Blank lead)
include skipped

theorem Line.word : WordThen (lead ++ l.text rest) l.name (l.fromNumber rest) :=
  ⟨l.nonempty, l.solid, l.afterName.starts _, lead, skipped, rfl⟩

omit skipped in
theorem Line.number_read (fits : FitsInt l.number.value) :
    IntThen (l.fromNumber rest) l.number (l.fromLower rest) :=
  ⟨fits, l.afterNumber.stops _, _, l.afterName.blank, rfl⟩

omit skipped in
theorem Line.lower_read (fits : FitsInt l.lower.value) :
    IntThen (l.fromLower rest) l.lower (l.fromUpper rest) :=
  ⟨fits, l.afterLower.stops _, _, l.afterNumber.blank, rfl⟩

theorem Line.record (before : l.FitsBefore) (fits : FitsInt l.upper.value)
    (stop : ∃ c tail, rest = c :: tail ∧ c.isDigit = false) :
    Record (lead ++ l.text rest) l.name l.number l.lower l.upper rest :=
  ⟨l.word skipped, l.number_read before.1, l.lower_read before.2, fits, stop, _,
    l.afterLower.blank, rfl⟩

theorem Line.runsOut (before : l.FitsBefore) : RunsOut (lead ++ l.text []) :=
  .upper (l.word skipped) (l.number_read before.1) (l.lower_read before.2)
    ⟨_, l.upper.sign, l.upper.digits, l.afterLower.blank, l.upper.numeric, by
      simp [fromUpper, Numeral.text]⟩

variable {r : Reading} (here : r.input = reading (lead ++ l.text rest))
include here

theorem Line.halted_before (outside : ¬ l.FitsBefore) : r.extractFields.Halted false := by
  by_cases first : FitsInt l.number.value
  · have second : ¬ FitsInt l.lower.value := fun fits => outside ⟨first, fits⟩
    obtain ⟨c, tail, split, stop⟩ := l.afterLower.stops (l.upper.text ++ rest)
    obtain ⟨v, fails⟩ := extractInt_misfit second l.afterNumber.blank stop tail r.lower
    apply Reading.halted_of_lower
    rw [Reading.after_instNum here (l.word skipped) (l.number_read first)]
    rw [← split] at fails
    exact Reading.extractNumber_fails (show _ = reading (l.fromLower rest) from rfl) fails
  · obtain ⟨c, tail, split, stop⟩ := l.afterNumber.stops (l.lower.text ++ l.fromUpper rest)
    obtain ⟨v, fails⟩ := extractInt_misfit first l.afterName.blank stop tail r.instNum
    apply Reading.halted_of_instNum
    rw [Reading.extractFuncName_then here (l.word skipped)]
    rw [← split] at fails
    exact Reading.extractNumber_fails (show _ = reading (l.fromNumber rest) from rfl) fails

theorem Line.halted_upper (before : l.FitsBefore) (outside : ¬ FitsInt l.upper.value)
    (stop : ∃ c tail, rest = c :: tail ∧ c.isDigit = false) : r.extractFields.Halted false := by
  obtain ⟨c, tail, rfl, stop⟩ := stop
  obtain ⟨v, fails⟩ := extractInt_misfit outside l.afterLower.blank stop tail r.upper
  rw [Reading.upper_tried here (l.word skipped) (l.number_read before.1) (l.lower_read before.2)]
  exact Reading.extractNumber_fails (show _ = reading (l.fromUpper (c :: tail)) from rfl) fails

end Line

/-! ### The loop over such a file -/

namespace Reading

theorem extractFields_blank {r : Reading} {lead : List Char} (skipped : Blank lead)
    (here : r.input = reading lead) : r.extractFields = { r with input := ⟨[], true, true⟩ } := by
  have first : r.extractFuncName = { r with input := ⟨[], true, true⟩ } := by
    unfold extractFuncName extractString
    rw [here, sentry_blank skipped]
  unfold extractFields extractInstNum extractLower extractNumber
  rw [first]
  dsimp only
  rw [extractInt_stopped (.inl rfl)]
  dsimp only
  rw [extractInt_stopped (.inl rfl)]
  rfl

theorem extractFields_toSliceList (r : Reading) :
    r.extractFields.toSliceList = r.toSliceList := by
  unfold extractFields
  dsimp only
  split <;> rfl

theorem loop_cases {fuel : Nat} {r r' : Reading} (run : r.loop fuel = some r') :
    (r.extractFields.input.eofbit = true ∧ r' = r.extractFields) ∨
    ∃ fuel', r.extractFields.input.eofbit = false ∧
      r.extractFields.insertEntry.loop fuel' = some r' := by
  cases fuel with
  | zero => cases run
  | succ fuel =>
    cases touched : r.extractFields.input.eofbit with
    | true =>
      rw [loop_last touched] at run
      exact .inl ⟨rfl, (Option.some.inj run).symm⟩
    | false =>
      rw [loop_next touched] at run
      exact .inr ⟨fuel, rfl, run⟩

theorem run_not_halted {fuel : Nat} {r r' : Reading} (run : r.loop fuel = some r') :
    ¬ r.extractFields.Halted false := by
  intro halted
  rcases loop_cases run with ⟨touched, _⟩ | ⟨fuel', _, run⟩
  · rw [halted.flag] at touched
    cases touched
  · have next : r.extractFields.insertEntry.Halted false := ⟨halted.stopped, halted.flag⟩
    rw [loop_halted next] at run
    cases run

theorem insertEntry_listed (r : Reading) (name : List Char) (k : Int) :
    k ∈ r.insertEntry.toSliceList name ↔
      k ∈ r.toSliceList name ∨ r.funcName = name ∧ r.instNum = k := by
  unfold insertEntry
  by_cases same : name = r.funcName
  · subst same
    simp [or_comm, eq_comm]
  · simp [Function.update_of_ne same, Ne.symm same]

theorem insertEntry_bounds (r : Reading) :
    r.insertEntry.lineToBounds r.insertEntry.instNum = (r.lower, r.upper) := by
  unfold insertEntry
  exact Function.update_self ..

end Reading

theorem newline_stops (rest : List Char) :
    ∃ c tail, '\n' :: rest = c :: tail ∧ c.isDigit = false :=
  ⟨'\n', rest, rfl, rfl⟩

theorem newline_blank : Blank ['\n'] := by
  intro c mem
  rw [List.mem_singleton.mp mem]
  rfl

theorem inserted_cons {l : Line} {ls : List Line} {newline : Bool}
    (more : newline = false → ls ≠ []) :
    inserted (l :: ls) newline = l :: inserted ls newline := by
  unfold inserted
  cases newline with
  | true => rfl
  | false => exact List.dropLast_cons_of_ne_nil (more rfl)

theorem fits_cons {l : Line} {ls : List Line} {newline : Bool} (more : newline = false → ls ≠ []) :
    Fits (l :: ls) newline ↔ l.FitsBefore ∧ FitsInt l.upper.value ∧ Fits ls newline := by
  constructor
  · intro ⟨before, upper⟩
    rw [inserted_cons more] at upper
    exact ⟨before l (by simp), upper l (by simp), fun m hm => before m (by simp [hm]),
      fun m hm => upper m (by simp [hm])⟩
  · intro ⟨before, upper, fits⟩
    constructor
    · intro m hm
      rcases List.mem_cons.mp hm with rfl | later
      · exact before
      · exact fits.before m later
    · intro m hm
      rw [inserted_cons more] at hm
      rcases List.mem_cons.mp hm with rfl | later
      · exact upper
      · exact fits.upper m later

theorem ends_written (lines : List Line) (newline : Bool) (fits : Fits lines newline)
    {lead : List Char} (skipped : Blank lead) : Ends (lead ++ written lines newline) := by
  fun_induction written lines newline generalizing lead with
  | case1 => exact .stop (.name ⟨lead, [], skipped, by simp, rfl⟩)
  | case2 l => exact .stop (l.runsOut skipped (fits.before l (by simp)))
  | case3 l ls newline notLast ih =>
    obtain ⟨before, upper, fits⟩ := (fits_cons notLast).mp fits
    exact .record (l.record skipped before upper (newline_stops _)) (ih fits newline_blank)

/-- What a file adds to the locals. -/
structure ReadAll (lines : List Line) (newline : Bool) (r r' : Reading) : Prop where
  fits : Fits lines newline
  listed : ∀ name k, k ∈ r'.toSliceList name ↔
    k ∈ r.toSliceList name ∨ ∃ l ∈ inserted lines newline, l.name = name ∧ l.number.value = k
  bounds : newline = true → r'.lineToBounds r'.instNum =
    (lines.getLast?.map Line.bounds).getD (r.lineToBounds r.instNum)

theorem loop_written (lines : List Line) (newline : Bool) {lead : List Char}
    (skipped : Blank lead) {fuel : Nat} {r r' : Reading}
    (here : r.input = reading (lead ++ written lines newline)) (run : r.loop fuel = some r') :
    ReadAll lines newline r r' := by
  fun_induction written lines newline generalizing lead fuel r with
  | case1 newline =>
    rw [List.append_nil] at here
    have round := Reading.extractFields_blank skipped here
    rcases Reading.loop_cases run with ⟨_, rfl⟩ | ⟨_, more, _⟩
    · rw [round]
      exact ⟨⟨by simp, by simp [inserted]⟩, by simp [inserted], fun _ => rfl⟩
    · rw [round] at more
      cases more
  | case2 l =>
    by_cases before : l.FitsBefore
    · have touched := (Reading.extractFields_runsOut here (l.runsOut skipped before)).flag
      rcases Reading.loop_cases run with ⟨_, rfl⟩ | ⟨_, more, _⟩
      · exact ⟨⟨by simpa using before, by simp [inserted]⟩,
          by simp [inserted, Reading.extractFields_toSliceList], nofun⟩
      · rw [touched] at more
        cases more
    · exact absurd (l.halted_before skipped here before) (Reading.run_not_halted run)
  | case3 l ls newline notLast ih =>
    by_cases before : l.FitsBefore
    · by_cases upper : FitsInt l.upper.value
      · have entry := l.record skipped before upper (newline_stops (written ls newline))
        have round := Reading.extractFields_record here entry
        rcases Reading.loop_cases run with ⟨touched, _⟩ | ⟨fuel', _, rest⟩
        · rw [round] at touched
          cases touched
        · rw [round] at rest
          have later := ih newline_blank rfl rest
          refine ⟨(fits_cons notLast).mpr ⟨before, upper, later.fits⟩, ?_, ?_⟩
          · intro name k
            rw [later.listed, inserted_cons notLast, Reading.insertEntry_listed]
            simp [or_assoc]
          · intro ended
            rw [later.bounds ended, Reading.insertEntry_bounds]
            rw [List.getLast?_cons]
            cases ls.getLast? <;> rfl
      · exact absurd (l.halted_upper skipped here before upper (newline_stops _))
          (Reading.run_not_halted run)
    · exact absurd (l.halted_before skipped here before) (Reading.run_not_halted run)

/-! ### The marking -/

def Listed (names : FuncId → List Char) (list : List Char → List Int) (M : Module)
    (i : InstId) : Prop :=
  ∃ F ∈ M.functions, ∃ (k : Nat) (I : Instruction),
    F.insts[k]? = some I ∧ I.id = i ∧ (k : Int) ∈ list (names F.id)

section Marking
variable {σ : Type} {mark : InstId → σ → σ} {names : FuncId → List Char}
  {list : List Char → List Int} {M : Module}

theorem markInFunction_adds {R : σ → Prop} {E : InstId → Prop}
    (step : ∀ i marks, R (mark i marks) ↔ R marks ∨ E i) (numbers : List Int) (F : Function)
    (marks : σ) : R (markInFunction mark numbers F marks) ↔
      R marks ∨ ∃ (k : Nat) (I : Instruction), F.insts[k]? = some I ∧ (k : Int) ∈ numbers ∧
        E I.id := by
  have adds := @foldl_adds _ _ _ R (fun x : Instruction × Nat => (x.2 : Int) ∈ numbers ∧ E x.1.id)
    F.insts.zipIdx (fun x _ marks => by
      show R (if (x.2 : Int) ∈ numbers then mark x.1.id marks else marks) ↔ _
      by_cases mem : (x.2 : Int) ∈ numbers <;> simp [step, mem]) marks
  unfold markInFunction
  rw [adds]
  apply or_congr_right
  constructor
  · intro ⟨x, mem, listed, here⟩
    exact ⟨x.2, x.1, List.mem_zipIdx_iff_getElem?.mp mem, listed, here⟩
  · intro ⟨k, I, at_k, listed, here⟩
    exact ⟨(I, k), List.mem_zipIdx_iff_getElem?.mpr at_k, listed, here⟩

theorem markListed_adds {R : σ → Prop} {E : InstId → Prop}
    (step : ∀ i marks, R (mark i marks) ↔ R marks ∨ E i) (marks : σ) :
    R (markListed mark names list M marks) ↔ R marks ∨ ∃ i, Listed names list M i ∧ E i := by
  have oneFunction : ∀ F ∈ M.functions, ∀ marks,
      R (if (list (names F.id)).isEmpty then marks
        else markInFunction mark (list (names F.id)) F marks) ↔
      R marks ∨ ∃ (k : Nat) (I : Instruction), F.insts[k]? = some I ∧
        (k : Int) ∈ list (names F.id) ∧ E I.id := by
    intro F _ marks
    split
    · rename_i empty
      simp [List.isEmpty_iff.mp empty]
    · exact markInFunction_adds step _ F marks
  unfold markListed
  rw [foldl_adds oneFunction]
  apply or_congr_right
  unfold Listed
  constructor
  · intro ⟨F, hF, k, I, at_k, listed, here⟩
    exact ⟨I.id, ⟨F, hF, k, I, at_k, rfl, listed⟩, here⟩
  · rintro ⟨_, ⟨F, hF, k, I, at_k, rfl, listed⟩, here⟩
    exact ⟨F, hF, k, I, at_k, listed, here⟩

theorem markListed_keeps {P : σ → Prop} (step : ∀ i marks, P marks → P (mark i marks))
    {marks : σ} (start : P marks) : P (markListed mark names list M marks) := by
  unfold markListed
  apply foldl_keeps _ start
  intro F _ marks kept
  dsimp only
  split
  · exact kept
  · unfold markInFunction
    apply foldl_keeps _ kept
    intro x _ marks kept
    show P (if (x.2 : Int) ∈ _ then mark x.1.id marks else marks)
    split
    · exact step _ _ kept
    · exact kept

theorem forwardSlice_markNode_mem (n : NodePtr) (marks : Marks) :
    n ∈ (markListed ForwardSlice.markNode names list M marks).markedNodes ↔
      n ∈ marks.markedNodes ∨ ∃ i, Listed names list M i ∧ n = .inst i := by
  apply markListed_adds (R := fun marks : Marks => n ∈ marks.markedNodes)
    (E := fun i => n = .inst i)
  intro i marks
  simp [ForwardSlice.markNode, or_comm]

variable (bounds : Int × Int)

theorem backSlice_markNode_mem (n : NodePtr) (marks : BackSlice.BoundedMarks) :
    n ∈ (markListed (BackSlice.markNode bounds) names list M marks).markedNodes ↔
      n ∈ marks.markedNodes ∨ ∃ i, Listed names list M i ∧ n = .inst i := by
  apply markListed_adds (R := fun marks : BackSlice.BoundedMarks => n ∈ marks.markedNodes)
    (E := fun i => n = .inst i)
  intro i marks
  simp [BackSlice.markNode, or_comm]

theorem backSlice_markNode_bounds {marks : BackSlice.BoundedMarks}
    (start : ∀ n ∈ marks.markedNodes, marks.boundsMap n = some bounds) :
    ∀ n ∈ (markListed (BackSlice.markNode bounds) names list M marks).markedNodes,
      (markListed (BackSlice.markNode bounds) names list M marks).boundsMap n = some bounds := by
  apply markListed_keeps (P := fun marks : BackSlice.BoundedMarks =>
    ∀ n ∈ marks.markedNodes, marks.boundsMap n = some bounds) _ start
  intro i marks kept n mem
  unfold BackSlice.markNode at mem ⊢
  by_cases same : n = .inst i
  · simp [same]
  · rw [List.mem_insert_iff] at mem
    simpa [same] using kept n (mem.resolve_left same)

end Marking

/-- The instruction with the entry's number in the function of the entry's name. -/
def Names (names : FuncId → List Char) (M : Module) (l : Line) (i : InstId) : Prop :=
  ∃ F ∈ M.functions, names F.id = l.name ∧ ∃ (k : Nat) (I : Instruction),
    F.insts[k]? = some I ∧ I.id = i ∧ l.number.value = k

/-- The marked nodes are those of the instructions that the entries name. -/
def LoadedExactly (names : FuncId → List Char) (M : Module) (lines : List Line)
    (markedNodes : List NodePtr) : Prop :=
  ∀ n, n ∈ markedNodes ↔ ∃ l ∈ lines, ∃ i, Names names M l i ∧ n = .inst i

section Loaded
variable {names : FuncId → List Char} {M : Module} {lines : List Line} {newline : Bool}
  {instNodeMap : NodeMap InstId} {instNum lower upper : Int}

theorem listed_iff {r r' : Reading} (empty : r.toSliceList = fun _ => [])
    (read : ReadAll lines newline r r') (i : InstId) :
    Listed names r'.toSliceList M i ↔ ∃ l ∈ inserted lines newline, Names names M l i := by
  unfold Listed Names
  constructor
  · intro ⟨F, hF, k, I, at_k, same, listed⟩
    rw [read.listed, empty] at listed
    obtain ⟨l, hl, name, number⟩ := listed.resolve_left (by simp)
    exact ⟨l, hl, F, hF, name.symm, k, I, at_k, same, number⟩
  · intro ⟨l, hl, F, hF, name, k, I, at_k, same, number⟩
    exact ⟨F, hF, k, I, at_k, same, (read.listed _ _).mpr (.inr ⟨l, hl, name.symm, number⟩)⟩

theorem backSlice_marks {fuel : Nat} {marks : BackSlice.BoundedMarks}
    (run : BackSlice.readInit fuel names M instNodeMap
      (opened (written lines newline) instNum lower upper) = some marks) :
    Fits lines newline ∧ LoadedExactly names M (inserted lines newline) marks.markedNodes ∧
    (newline = true → ∀ n ∈ marks.markedNodes,
      marks.boundsMap n = some ((lines.getLast?.map Line.bounds).getD (0, 0))) := by
  obtain ⟨r', loops, made⟩ := bind_some run
  have read := loop_written lines newline (show Blank [] from nofun) rfl loops
  obtain rfl := Option.some.inj made
  refine ⟨read.fits, fun n => ?_, fun ended => ?_⟩
  · rw [backSlice_markNode_mem]
    simp only [listed_iff rfl read, List.not_mem_nil, false_or]
    grind
  · have left : r'.lineToBounds r'.instNum = (lines.getLast?.map Line.bounds).getD (0, 0) :=
      read.bounds ended
    rw [← left]
    exact backSlice_markNode_bounds _ nofun

theorem forwardSlice_marks {fuel : Nat} {marks : Marks}
    (run : ForwardSlice.readInit fuel names M instNodeMap
      (opened (written lines newline) instNum lower upper) = some marks) :
    Fits lines newline ∧ LoadedExactly names M (inserted lines newline) marks.markedNodes := by
  obtain ⟨r', loops, made⟩ := bind_some run
  have read := loop_written lines newline (show Blank [] from nofun) rfl loops
  obtain rfl := Option.some.inj made
  refine ⟨read.fits, fun n => ?_⟩
  rw [forwardSlice_markNode_mem]
  simp only [listed_iff rfl read, List.not_mem_nil, false_or]
  grind

theorem readInit_written (fits : Fits lines newline) :
    (∃ fuel marks, BackSlice.readInit fuel names M instNodeMap
      (opened (written lines newline) instNum lower upper) = some marks) ∧
    ∃ fuel marks, ForwardSlice.readInit fuel names M instNodeMap
      (opened (written lines newline) instNum lower upper) = some marks := by
  have ends := ends_written lines newline fits (show Blank [] from nofun)
  obtain ⟨fuel, runs⟩ := (loop_ends_iff
    (show (opened (written lines newline) instNum lower upper).input = _ from rfl)).mpr ends
  have both := readInit_runs_iff names M instNodeMap fuel
    (opened (written lines newline) instNum lower upper)
  exact ⟨⟨fuel, both.1.mpr runs⟩, fuel, both.2.mpr runs⟩

theorem loadedExactly_iff {markedNodes : List NodePtr}
    (marks : LoadedExactly names M (inserted lines newline) markedNodes) :
    LoadedExactly names M lines markedNodes ↔ ∀ l ∈ lines, ∀ i, Names names M l i →
      ∃ l' ∈ inserted lines newline, Names names M l' i := by
  constructor
  · intro exact l hl i named
    obtain ⟨l', hl', j, here, same⟩ := (marks _).mp ((exact _).mpr ⟨l, hl, i, named, rfl⟩)
    cases same
    exact ⟨l', hl', here⟩
  · intro covered n
    rw [marks n]
    constructor
    · intro ⟨l, hl, i, named, same⟩
      unfold inserted at hl
      split at hl
      · exact ⟨l, hl, i, named, same⟩
      · exact ⟨l, List.mem_of_mem_dropLast hl, i, named, same⟩
    · intro ⟨l, hl, i, named, same⟩
      obtain ⟨l', hl', here⟩ := covered l hl i named
      exact ⟨l', hl', i, here, same⟩

end Loaded

/-- The criteria that were written are loaded exactly if the numbers are such that the
    file is read to its end, and a last line without a newline names nothing new. -/
theorem readInit_loads_iff (names : FuncId → List Char) (M : Module)
    (instNodeMap : NodeMap InstId) (lines : List Line) (newline : Bool)
    (instNum lower upper : Int) :
    ((∃ fuel marks, BackSlice.readInit fuel names M instNodeMap
        (opened (written lines newline) instNum lower upper) = some marks ∧
        LoadedExactly names M lines marks.markedNodes) ↔
      Fits lines newline ∧ ∀ l ∈ lines, ∀ i, Names names M l i →
        ∃ l' ∈ inserted lines newline, Names names M l' i) ∧
    ((∃ fuel marks, ForwardSlice.readInit fuel names M instNodeMap
        (opened (written lines newline) instNum lower upper) = some marks ∧
        LoadedExactly names M lines marks.markedNodes) ↔
      Fits lines newline ∧ ∀ l ∈ lines, ∀ i, Names names M l i →
        ∃ l' ∈ inserted lines newline, Names names M l' i) := by
  constructor
  · constructor
    · intro ⟨fuel, marks, run, exact⟩
      obtain ⟨fits, marked, _⟩ := backSlice_marks run
      exact ⟨fits, (loadedExactly_iff marked).mp exact⟩
    · intro ⟨fits, covered⟩
      obtain ⟨⟨fuel, marks, run⟩, _⟩ := readInit_written fits
      obtain ⟨_, marked, _⟩ := backSlice_marks run
      exact ⟨fuel, marks, run, (loadedExactly_iff marked).mpr covered⟩
  · constructor
    · intro ⟨fuel, marks, run, exact⟩
      obtain ⟨fits, marked⟩ := forwardSlice_marks run
      exact ⟨fits, (loadedExactly_iff marked).mp exact⟩
    · intro ⟨fits, covered⟩
      obtain ⟨_, fuel, marks, run⟩ := readInit_written fits
      obtain ⟨_, marked⟩ := forwardSlice_marks run
      exact ⟨fuel, marks, run, (loadedExactly_iff marked).mpr covered⟩

def singleDigit (c : Char) (digit : c.isDigit = true) : Numeral where
  sign := .none
  digits := [c]
  nonempty := nofun
  numeric := by simpa using digit

def oneBlank : Gap where
  text := [' ']
  nonempty := nofun
  blank c mem := by rw [List.mem_singleton.mp mem]; rfl

def mainLine (number lower upper : Numeral) : Line where
  name := "main".toList
  number := number
  lower := lower
  upper := upper
  nonempty := by decide
  solid c mem := by
    have all : ("main".toList.all fun c => !isSpace c) = true := by decide
    simpa using List.all_eq_true.mp all c mem
  afterName := oneBlank
  afterNumber := oneBlank
  afterLower := oneBlank

def unterminated : List Line :=
  [mainLine (singleDigit '0' rfl) (singleDigit '1' rfl) (singleDigit '2' rfl)]

theorem unterminated_not_loaded : written unterminated false = "main 0 1 2".toList ∧
    (¬ ∃ fuel marks, BackSlice.readInit fuel (fun _ => "main".toList) straightLine []
      (opened (written unterminated false) 0 0 0) = some marks ∧
      LoadedExactly (fun _ => "main".toList) straightLine unterminated marks.markedNodes) ∧
    ¬ ∃ fuel marks, ForwardSlice.readInit fuel (fun _ => "main".toList) straightLine []
      (opened (written unterminated false) 0 0 0) = some marks ∧
      LoadedExactly (fun _ => "main".toList) straightLine unterminated marks.markedNodes := by
  have named : Names (fun _ => "main".toList) straightLine
      (mainLine (singleDigit '0' rfl) (singleDigit '1' rfl) (singleDigit '2' rfl)) 0 :=
    ⟨_, List.mem_singleton_self _, rfl, 0, _, rfl, rfl, by decide⟩
  have none : ∀ {marked}, LoadedExactly (fun _ => "main".toList) straightLine
      (inserted unterminated false) marked →
      ¬ LoadedExactly (fun _ => "main".toList) straightLine unterminated marked := by
    intro marked dropped exact
    obtain ⟨l, hl, _⟩ := (loadedExactly_iff dropped).mp exact _ (List.mem_singleton_self _) 0 named
    cases hl
  refine ⟨by decide, ?_, ?_⟩
  · intro ⟨fuel, marks, run, exact⟩
    exact none (backSlice_marks run).2.1 exact
  · intro ⟨fuel, marks, run, exact⟩
    exact none (forwardSlice_marks run).2 exact

/-- Each criterion has its own bounds exactly if the file is read to its end and
    whatever names an instruction has the bounds of the last entry. -/
theorem readInit_bounds_iff (names : FuncId → List Char) (M : Module)
    (instNodeMap : NodeMap InstId) (lines : List Line) (instNum lower upper : Int) :
    (∃ fuel marks, BackSlice.readInit fuel names M instNodeMap
      (opened (written lines true) instNum lower upper) = some marks ∧
      ∀ l ∈ lines, ∀ i, Names names M l i → .inst i ∈ marks.markedNodes →
        marks.boundsMap (.inst i) = some l.bounds) ↔
    Fits lines true ∧ ∀ l ∈ lines, ∀ i, Names names M l i →
      ∀ last, lines.getLast? = some last → l.bounds = last.bounds := by
  constructor
  · intro ⟨fuel, marks, run, own⟩
    obtain ⟨fits, marked, left⟩ := backSlice_marks run
    refine ⟨fits, fun l hl i named last isLast => ?_⟩
    have mem : .inst i ∈ marks.markedNodes := (marked _).mpr ⟨l, hl, i, named, rfl⟩
    have same := own l hl i named mem
    rw [left rfl _ mem, isLast] at same
    exact (Option.some.inj same).symm
  · intro ⟨fits, same⟩
    obtain ⟨⟨fuel, marks, run⟩, _⟩ := readInit_written fits
    obtain ⟨_, _, left⟩ := backSlice_marks run
    refine ⟨fuel, marks, run, fun l hl i named mem => ?_⟩
    obtain ⟨last, isLast⟩ : ∃ last, lines.getLast? = some last :=
      Option.isSome_iff_exists.mp (List.getLast?_isSome.mpr (List.ne_nil_of_mem hl))
    rw [left rfl _ mem, isLast, same l hl i named last isLast]
    rfl

def twoCriteria : List Line :=
  [mainLine (singleDigit '0' rfl) (singleDigit '1' rfl) (singleDigit '2' rfl),
    mainLine (singleDigit '1' rfl) (singleDigit '3' rfl) (singleDigit '4' rfl)]

theorem twoCriteria_share : written twoCriteria true = "main 0 1 2\nmain 1 3 4\n".toList ∧
    (twoCriteria.map fun l => (l.name, l.number.value)).Nodup ∧
    ¬ ∃ fuel marks, BackSlice.readInit fuel (fun _ => "main".toList) straightLine []
      (opened (written twoCriteria true) 0 0 0) = some marks ∧
      ∀ l ∈ twoCriteria, ∀ i, Names (fun _ => "main".toList) straightLine l i →
        .inst i ∈ marks.markedNodes → marks.boundsMap (.inst i) = some l.bounds := by
  have named : Names (fun _ => "main".toList) straightLine
      (mainLine (singleDigit '0' rfl) (singleDigit '1' rfl) (singleDigit '2' rfl)) 0 :=
    ⟨_, List.mem_singleton_self _, rfl, 0, _, rfl, rfl, by decide⟩
  refine ⟨by decide, by decide, ?_⟩
  intro ⟨fuel, marks, run, own⟩
  obtain ⟨_, marked, left⟩ := backSlice_marks run
  have mem : .inst 0 ∈ marks.markedNodes := (marked _).mpr ⟨_, List.mem_cons_self, 0, named, rfl⟩
  have first := own _ List.mem_cons_self 0 named mem
  rw [left rfl _ mem] at first
  revert first
  decide

end ProgramSlicer
