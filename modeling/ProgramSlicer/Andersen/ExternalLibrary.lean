import ProgramSlicer.Andersen.InstructionConstraints

/-!
`Andersen::addConstraintForExternalLibrary`: what is known of the functions of the C
library, by name. The first table that has the name decides. `none` is a failed
assertion, an argument that is not there, or a null pointer that is dereferenced.
-/
namespace ProgramSlicer.Andersen
open AndersNodeFactory

def noopFuncs : List String :=
  ["log", "log10", "exp", "exp2", "exp10", "strcmp", "strncmp", "strlen", "atoi", "atof", "atol",
   "atoll", "remove", "unlink", "rename", "memcmp", "free", "execl", "execlp", "execle", "execv",
   "execvp", "chmod", "puts", "write", "open", "create", "truncate", "chdir", "mkdir", "rmdir",
   "read", "pipe", "wait", "time", "stat", "fstat", "lstat", "strtod", "strtof", "strtold",
   "fopen", "fdopen", "fflush", "feof", "fileno", "clearerr", "rewind", "ftell", "ferror",
   "fgetc", "fgetc", "_IO_getc", "fwrite", "fread", "fgets", "ungetc", "fputc", "fputs", "putc",
   "ftell", "rewind", "_IO_putc", "fseek", "fgetpos", "fsetpos", "printf", "fprintf", "sprintf",
   "vprintf", "vfprintf", "vsprintf", "scanf", "fscanf", "sscanf", "__assert_fail", "modf",
   "putchar", "isalnum", "isalpha", "isascii", "isatty", "isblank", "iscntrl", "isdigit",
   "isgraph", "islower", "isprint", "ispunct", "isspace", "isupper", "iswalnum", "iswalpha",
   "iswctype", "iswdigit", "iswlower", "iswspace", "iswprint", "iswupper", "sin", "cos", "sinf",
   "cosf", "asin", "acos", "tan", "atan", "fabs", "pow", "floor", "ceil", "sqrt", "sqrtf",
   "hypot", "random", "tolower", "toupper", "towlower", "towupper", "system", "clock", "exit",
   "abort", "gettimeofday", "settimeofday", "sleep", "ctime", "strspn", "strcspn", "localtime",
   "strftime", "qsort", "popen", "pclose", "rand", "rand_r", "srand", "seed48", "drand48",
   "lrand48", "srand48", "__isoc99_sscanf", "__isoc99_fscanf", "fclose", "close", "perror",
   "strerror", "__errno_location", "__ctype_b_loc", "abs", "difftime", "setbuf", "_ZdlPv",
   "_ZdaPv", "fesetround", "fegetround", "fetestexcept", "feraiseexcept", "feclearexcept",
   "llvm.bswap.i16", "llvm.bswap.i32", "llvm.ctlz.i64", "llvm.lifetime.start",
   "llvm.lifetime.end", "llvm.stackrestore", "memset", "llvm.memset.i32", "llvm.memset.p0i8.i32",
   "llvm.memset.i64", "llvm.memset.p0i8.i64", "llvm.va_end", "setrlimit", "getrlimit"]

def mallocFuncs : List String :=
  ["malloc", "valloc", "calloc", "_Znwj", "_ZnwjRKSt9nothrow_t", "_Znwm", "_ZnwmRKSt9nothrow_t",
   "_Znaj", "_ZnajRKSt9nothrow_t", "_Znam", "_ZnamRKSt9nothrow_t", "strdup", "strndup", "getenv",
   "memalign", "posix_memalign"]

def reallocFuncs : List String :=
  ["realloc", "strtok", "strtok_r", "getcwd"]

def retArg0Funcs : List String :=
  ["fgets", "gets", "stpcpy", "strcat", "strchr", "strcpy", "strerror_r", "strncat", "strncpy",
   "strpbrk", "strptime", "strrchr", "strstr"]

def retArg1Funcs : List String :=
  ["signal"]

def retArg2Funcs : List String :=
  ["freopen"]

def memcpyFuncs : List String :=
  ["llvm.memcpy.i32", "llvm.memcpy.p0i8.p0i8.i32", "llvm.memcpy.i64", "llvm.memcpy.p0i8.p0i8.i64",
   "llvm.memmove.i32", "llvm.memmove.p0i8.p0i8.i32", "llvm.memmove.i64",
   "llvm.memmove.p0i8.p0i8.i64", "memccpy", "memmove", "bcopy"]

def convertFuncs : List String :=
  ["strtod", "strtof", "strtol", "strtold", "strtoll", "strtoul"]

def lookupName (table : List String) (str : String) : Bool := table.contains str

def PtrValue.isPointerNull : PtrValue → Bool
  | .constant .pointerNull => true
  | _ => false

/-- `createValueNode()`: a node that no value is mapped to. -/
def NodeMaps.createUnnamedNode (N : NodeMaps) : NodeIndex × NodeMaps :=
  (N.numNodes, { N with numNodes := N.numNodes + 1 })

namespace Collection

/-- `cs.getCalledFunction()->getName()`; an indirect call has no called function. -/
def calledName (names : FuncId → String) (I : PtrInstruction) : Option String :=
  match I.op with
  | .call (.direct f) _ => some (names f)
  | _ => none

def addAllocation (names : FuncId → String) (A : Collection) (I : PtrInstruction)
    (args : List PtrValue) : Option Collection := do
  let (objIndex, A) ← A.createObjectNode (.instruction I.id)
  match A.getValueNodeFor (.instruction I.id) with
  | some ptrIndex => return A.emplace .ADDR_OF ptrIndex objIndex
  | none => do
    let name ← calledName names I
    if name = "posix_memalign" then do
      let arg0 ← args[0]?
      let ptrIndex ← A.getValueNodeFor arg0
      return A.emplace .STORE ptrIndex objIndex
    else none

def addReturnedArg (A : Collection) (I : PtrInstruction) (args : List PtrValue) (k : Nat) :
    Option Collection := do
  let retIndex ← A.getValueNodeFor (.instruction I.id)
  let arg ← args[k]?
  let argIndex ← A.getValueNodeFor arg
  return A.emplace .COPY retIndex argIndex

def addMemcpy (A : Collection) (I : PtrInstruction) (args : List PtrValue) :
    Option Collection := do
  let arg0 ← args[0]?
  let arg0Index ← A.getValueNodeFor arg0
  let arg1 ← args[1]?
  let arg1Index ← A.getValueNodeFor arg1
  let (tempIndex, N) := A.nodeFactory.createUnnamedNode
  let A := { A with nodeFactory := N }
  let A := (A.emplace .LOAD tempIndex arg1Index).emplace .STORE arg0Index tempIndex
  match A.getValueNodeFor (.instruction I.id) with
  | some retIndex => return A.emplace .COPY retIndex arg0Index
  | none => return A

def addConversion (A : Collection) (args : List PtrValue) : Option Collection := do
  let arg1 ← args[1]?
  A.onlyIf (!arg1.isPointerNull) fun A => do
    let arg0 ← args[0]?
    let arg0Index ← A.getValueNodeFor arg0
    let arg1Index ← A.getValueNodeFor arg1
    return A.emplace .STORE arg0Index arg1Index

def addVaStart (M : PtrModule) (A : Collection) (I : PtrInstruction) (args : List PtrValue) :
    Option Collection := do
  let parentF ← M.functions.find? fun F => F.insts.any (·.id = I.id)
  if parentF.isVarArg then do
    let arg0 ← args[0]?
    let arg0Index ← A.getValueNodeFor arg0
    let vaIndex ← A.nodeFactory.varargMap parentF.id
    return A.emplace .ADDR_OF arg0Index vaIndex
  else none

/-- No name is in both of the tables for `malloc` and for `realloc`. -/
def addConstraintForExternalLibrary (names : FuncId → String) (M : PtrModule) : LibraryModel :=
  fun A I args f =>
    let name := names f.id
    if !f.isExternal then none
    else if lookupName noopFuncs name then some (true, A)
    else if lookupName mallocFuncs name then (A.addAllocation names I args).map (true, ·)
    else if lookupName reallocFuncs name then do
      let arg0 ← args[0]?
      let A ← if arg0.isPointerNull then A.addReturnedArg I args 0 else A.addAllocation names I args
      return (true, A)
    else if lookupName retArg0Funcs name then (A.addReturnedArg I args 0).map (true, ·)
    else if lookupName retArg1Funcs name then (A.addReturnedArg I args 1).map (true, ·)
    else if lookupName retArg2Funcs name then (A.addReturnedArg I args 2).map (true, ·)
    else if lookupName memcpyFuncs name then (A.addMemcpy I args).map (true, ·)
    else if lookupName convertFuncs name then (A.addConversion args).map (true, ·)
    else if name = "llvm.va_start" then (A.addVaStart M I args).map (true, ·)
    else some (false, A)

end Collection

/-! ### Which branch handles a call -/

theorem mallocFuncs_apart : (mallocFuncs.all fun n => !lookupName noopFuncs n) = true := by
  decide +kernel

theorem reallocFuncs_apart : (reallocFuncs.all fun n =>
    !lookupName noopFuncs n && !lookupName mallocFuncs n) = true := by
  decide +kernel

theorem memcpyFuncs_apart : (memcpyFuncs.all fun n =>
    !lookupName noopFuncs n && !lookupName mallocFuncs n && !lookupName reallocFuncs n &&
      !lookupName retArg0Funcs n && !lookupName retArg1Funcs n && !lookupName retArg2Funcs n) =
    true := by
  decide +kernel

theorem convertFuncs_apart : (convertFuncs.all fun n =>
    !lookupName mallocFuncs n && !lookupName reallocFuncs n && !lookupName retArg0Funcs n &&
      !lookupName retArg1Funcs n && !lookupName retArg2Funcs n && !lookupName memcpyFuncs n) =
    true := by
  decide +kernel

theorem lookupName_iff {table : List String} {str : String} :
    lookupName table str = true ↔ str ∈ table := List.contains_iff_mem

namespace Collection
variable {A A' B : Collection} {names : FuncId → String} {M : PtrModule} {I : PtrInstruction}
  {args : List PtrValue} {f : PtrFunction}

theorem dispatch_malloc (listed : names f.id ∈ mallocFuncs) :
    A.addConstraintForExternalLibrary names M I args f = some (true, A') ↔
      f.isExternal = true ∧ A.addAllocation names I args = some A' := by
  have apart := List.all_eq_true.mp mallocFuncs_apart _ listed
  have here := lookupName_iff.mpr listed
  unfold addConstraintForExternalLibrary
  cases f.isExternal <;> simp_all

theorem dispatch_realloc (listed : names f.id ∈ reallocFuncs) {p : PtrValue}
    (first : args[0]? = some p) :
    A.addConstraintForExternalLibrary names M I args f = some (true, A') ↔
      f.isExternal = true ∧ (if p.isPointerNull then A.addReturnedArg I args 0
        else A.addAllocation names I args) = some A' := by
  have apart := List.all_eq_true.mp reallocFuncs_apart _ listed
  have here := lookupName_iff.mpr listed
  unfold addConstraintForExternalLibrary
  cases f.isExternal <;> cases null : p.isPointerNull <;>
    simp_all [Option.bind_eq_some_iff]

theorem dispatch_memcpy (listed : names f.id ∈ memcpyFuncs) :
    A.addConstraintForExternalLibrary names M I args f = some (true, A') ↔
      f.isExternal = true ∧ A.addMemcpy I args = some A' := by
  have apart := List.all_eq_true.mp memcpyFuncs_apart _ listed
  have here := lookupName_iff.mpr listed
  unfold addConstraintForExternalLibrary
  cases f.isExternal <;> simp_all

theorem dispatch_convert (listed : names f.id ∈ convertFuncs) (kept : names f.id ∉ noopFuncs) :
    A.addConstraintForExternalLibrary names M I args f = some (true, A') ↔
      f.isExternal = true ∧ A.addConversion args = some A' := by
  have apart := List.all_eq_true.mp convertFuncs_apart _ listed
  have here := lookupName_iff.mpr listed
  have noop : lookupName noopFuncs (names f.id) = false := by
    rw [← lookupName_iff] at kept
    simpa using kept
  unfold addConstraintForExternalLibrary
  cases f.isExternal <;> simp_all

/-! ### What the branches emit -/

def withObject (A : Collection) (I : PtrInstruction) : Collection :=
  A.allocated (.object (.instruction I.id))

theorem getValueNodeFor_congr {N N' : NodeMaps} (same : N'.valueNodeMap = N.valueNodeMap)
    (v : PtrValue) : N'.getValueNodeFor v = N.getValueNodeFor v := by
  cases v with
  | constant c =>
    show N'.getValueNodeForConstant c = N.getValueNodeForConstant c
    induction c using NodeMaps.getValueNodeForConstant.induct with
    | case3 v => exact congrFun same _
    | case4 base offset ih => exact ih
    | case5 operand ih => exact ih
    | _ => rfl
  | scalar => rfl
  | _ => exact congrFun same _

@[simp] theorem getValueNodeFor_withObject (v : PtrValue) :
    (A.withObject I).getValueNodeFor v = A.getValueNodeFor v :=
  @getValueNodeFor_congr A.nodeFactory (A.withObject I).nodeFactory rfl v

theorem addAllocation_eq (free : .object (.instruction I.id) ∉ A.taken) :
    A.addAllocation names I args =
      match A.getValueNodeFor (.instruction I.id) with
      | some r => some ((A.withObject I).emplace .ADDR_OF r A.nodeFactory.numNodes)
      | none =>
        if calledName names I = some "posix_memalign" then
          (args[0]?.bind A.getValueNodeFor).map fun k =>
            (A.withObject I).emplace .STORE k A.nodeFactory.numNodes
        else none := by
  have absent : (A.nodeFactory.objNodeMap (.instruction I.id)).isSome = false := by
    simpa [taken, node] using free
  have created : A.createObjectNode (.instruction I.id) =
      some (A.nodeFactory.numNodes, A.withObject I) := by
    simp [createObjectNode, NodeMaps.createObjectNode, absent, withObject, allocated]
  unfold addAllocation
  rw [created]
  dsimp only [Option.bind_eq_bind, Option.bind_some]
  rw [getValueNodeFor_withObject]
  cases A.getValueNodeFor (.instruction I.id) with
  | some r => rfl
  | none =>
    cases calledName names I with
    | none => rfl
    | some name =>
      by_cases here : name = "posix_memalign"
      · cases args[0]? with
        | none => simp [here]
        | some arg0 => cases found : A.getValueNodeFor arg0 <;> simp [here, found]
      · simp [here]

theorem free_of_addAllocation (run : A.addAllocation names I args = some A') :
    .object (.instruction I.id) ∉ A.taken := by
  intro owned
  have found : (A.nodeFactory.objNodeMap (.instruction I.id)).isSome = true := owned
  simp [addAllocation, createObjectNode, NodeMaps.createObjectNode, found] at run

theorem addReturnedArg_eq (k : Nat) : A.addReturnedArg I args k =
    (A.getValueNodeFor (.instruction I.id)).bind fun r =>
      (args[k]?.bind A.getValueNodeFor).map fun a => A.emplace .COPY r a := by
  unfold addReturnedArg
  cases A.getValueNodeFor (.instruction I.id) <;> cases args[k]? <;> simp
  rename_i arg
  cases A.getValueNodeFor arg <;> rfl

/-- A temporary that is loaded from one pointer and stored through another. -/
def withTransfer (A : Collection) (dest src : NodeIndex) : Collection :=
  let temp := A.nodeFactory.createUnnamedNode
  (Collection.emplace { A with nodeFactory := temp.2 } .LOAD temp.1 src).emplace .STORE dest temp.1

@[simp] theorem getValueNodeFor_withTransfer (dest src : NodeIndex) (v : PtrValue) :
    (A.withTransfer dest src).getValueNodeFor v = A.getValueNodeFor v :=
  @getValueNodeFor_congr A.nodeFactory (A.withTransfer dest src).nodeFactory rfl v

theorem node_withTransfer (dest src : NodeIndex) :
    (A.withTransfer dest src).node = A.node := by
  funext k
  cases k <;> rfl

theorem le_withTransfer (dest src : NodeIndex) : A ≤ A.withTransfer dest src := by
  constructor
  · intro k n found
    rw [node_withTransfer]
    exact found
  · intro c mem
    simp [withTransfer, emplace, mem]

def withCopy (A : Collection) (I : PtrInstruction) (dest src : NodeIndex) : Collection :=
  match A.getValueNodeFor (.instruction I.id) with
  | some r => (A.withTransfer dest src).emplace .COPY r dest
  | none => A.withTransfer dest src

theorem addMemcpy_eq : A.addMemcpy I args =
    (args[0]?.bind A.getValueNodeFor).bind fun dest =>
      (args[1]?.bind A.getValueNodeFor).map fun src => A.withCopy I dest src := by
  unfold addMemcpy
  cases args[0]? with
  | none => rfl
  | some arg0 =>
    cases found0 : A.getValueNodeFor arg0 with
    | none => simp [found0]
    | some dest =>
      cases args[1]? with
      | none => simp [found0]
      | some arg1 =>
        cases found1 : A.getValueNodeFor arg1 with
        | none => simp [found0, found1]
        | some src =>
          have same := getValueNodeFor_withTransfer (A := A) dest src (.instruction I.id)
          unfold withTransfer at same
          simp only [Option.bind_eq_bind, Option.bind_some, found0, found1, same, Option.map_some]
          unfold withCopy withTransfer
          cases A.getValueNodeFor (.instruction I.id) <;> rfl

theorem le_withCopy (dest src : NodeIndex) : A.withTransfer dest src ≤ A.withCopy I dest src := by
  unfold withCopy
  cases A.getValueNodeFor (.instruction I.id) with
  | none => exact le_refl _
  | some r => exact le_emplace _ _ _

theorem node_withCopy (dest src : NodeIndex) : (A.withCopy I dest src).node = A.node := by
  unfold withCopy
  cases A.getValueNodeFor (.instruction I.id) with
  | none => exact node_withTransfer dest src
  | some r => rw [node_emplace, node_withTransfer]

theorem addConversion_eq : A.addConversion args =
    args[1]?.bind fun endp =>
      if endp.isPointerNull then some A
      else (args[0]?.bind A.getValueNodeFor).bind fun s =>
        (A.getValueNodeFor endp).map fun e => A.emplace .STORE s e := by
  unfold addConversion onlyIf
  cases args[1]? with
  | none => rfl
  | some endp =>
    cases null : endp.isPointerNull with
    | true => simp [null]
    | false =>
      cases args[0]? with
      | none => simp [null]
      | some arg0 =>
        cases found : A.getValueNodeFor arg0 with
        | none => simp [null, found]
        | some k => cases found' : A.getValueNodeFor endp <;> simp [null, found, found']

end Collection
end ProgramSlicer.Andersen
