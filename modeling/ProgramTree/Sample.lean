import ProgramTree.Edit.Declaring

/-!
# Sample programs

Small programs built directly through the builders, standing in for parsed input.
While a line is built the parser is said to be at it, so nodes carry the line they
would have had in a source file.
-/

namespace ProgramTree

/-- The handles of the program that scales a vector. -/
structure VectorScale where
  module : NodeId
  scale : NodeId
  loop : NodeId
  data : NodeId
  factor : NodeId

/-- The handles of the program with a function nested for offload. -/
structure NestedOffload where
  module : NodeId
  outer : NodeId
  inner : NodeId
  x : NodeId
  calls : List NodeId

/-- The handles of the program whose loops are all left alone. -/
structure DeclinedLoops where
  module : NodeId
  jumping : NodeId
  paired : NodeId
  ordered : NodeId
  unmarked : NodeId

namespace Edit

/-- Says that the parser is at this line. -/
def atLine (file : String) (line : Nat) : Edit Unit :=
  setLexerLocation (some ⟨file, line⟩)

/-- Adds a module that is complete, after the parser is done. -/
def finishModule (module : NodeId) : Edit Unit := do
  setLexerLocation none
  addModule module

/--
A loop over a vector in a function that is fit for the GPU.

```text
1  module vec {
2    class Vector {}
3    fn scale(data: Vector, factor: int) {       // fit for offload
4      var i: int;
5      forall i in (0, 16) {
6        data[i] = data[i] * factor;
7      }
8    }
9    var v: Vector;
10   scale(v, 2);
11 }
```
-/
def vectorScale : Edit VectorScale := do
  let file := "vec.graft"
  let int := some PrimitiveType.int.id
  atLine file 2
  let vector ← newAggregateType "Vector" .classTag
  let naming := (← look (·.typeSymbolOf vector)).getD vector
  let defineVector ← define naming
  atLine file 3
  let data ← newArg "data" .blank (some vector)
  let factor ← newArg "factor" .blank int
  atLine file 4
  let i ← newVar "i" int
  let defineI ← define i
  atLine file 6
  let element ← newPrimitiveCall .index [data, i]
  let read ← newPrimitiveCall .index [data, i]
  let scaled ← newPrimitiveCall .multiply [read, factor]
  let store ← newPrimitiveCall .move [element, scaled]
  atLine file 5
  let low ← newInt 0
  let high ← newInt 16
  let loop ← newForLoop [i] [low, high] store true
  atLine file 3
  let body ← newBlock [defineI, loop]
  let scale ← newFn "scale" [data, factor] body none
  addFlag scale .fitForGpu
  let defineScale ← define scale
  atLine file 9
  let v ← newVar "v" (some vector)
  let defineV ← define v
  atLine file 10
  let two ← newInt 2
  let call ← newCall scale [v, two]
  atLine file 1
  let module ← newModule "vec" .user [defineVector, defineScale, defineV, call]
  finishModule module
  return { module, scale, loop, data, factor }

/--
A function for the GPU that changes a local of the function around it.

```text
1  module nested {
2    fn outer() {
3      var x: int;
4      x = 1;
5      fn inner() {                          // flagged for offload
6        var i: int;
7        forall i in (0, 8) {
8          x = x + i;
9        }
10     }
11     inner();                              // as often as there are call sites
12   }
13   outer();
14 }
```
-/
def nestedOffload (callSites : Nat) : Edit NestedOffload := do
  let file := "nested.graft"
  let int := some PrimitiveType.int.id
  atLine file 3
  let x ← newVar "x" int
  let defineX ← define x
  atLine file 4
  let one ← newInt 1
  let setX ← newPrimitiveCall .move [x, one]
  atLine file 6
  let i ← newVar "i" int
  let defineI ← define i
  atLine file 8
  let sum ← newPrimitiveCall .add [x, i]
  let update ← newPrimitiveCall .move [x, sum]
  atLine file 7
  let low ← newInt 0
  let high ← newInt 8
  let loop ← newForLoop [i] [low, high] update true
  atLine file 5
  let innerBody ← newBlock [defineI, loop]
  let inner ← newFn "inner" [] innerBody none
  addFlag inner .offloadToGpu
  let defineInner ← define inner
  atLine file 11
  let calls ← (List.range callSites).mapM fun _ => newCall inner []
  atLine file 2
  let outerBody ← newBlock ([defineX, setX, defineInner] ++ calls)
  let outer ← newFn "outer" [] outerBody none
  let defineOuter ← define outer
  atLine file 13
  let callOuter ← newCall outer []
  atLine file 1
  let module ← newModule "nested" .user [defineOuter, callOuter]
  finishModule module
  return { module, outer, inner, x, calls }

/-- The definition of a function without formals that runs `stmts`. -/
def defineFn (name : String) (stmts : List NodeId) (fitForGpu : Bool) : Edit NodeId := do
  let body ← newBlock stmts
  let fn ← newFn name [] body none
  if fitForGpu then
    addFlag fn .fitForGpu
  define fn

/--
Loops that outlining leaves alone, each for a different reason.

```text
1  module declined {
2    fn jumps() {                            // fit for offload
3      var i: int;
4      forall i in (0, 4) { return; }
5    }
6    fn pairs() {                            // fit for offload
7      var i: int;
8      var j: int;
9      forall (i, j) in (0, 4) { i = j; }
10   }
11   fn ordered() {                          // fit for offload
12     var k: int;
13     for k in (0, 4) {}
14   }
15   fn unmarked() {
16     var m: int;
17     forall m in (0, 4) {}
18   }
19 }
```
-/
def declinedLoops : Edit DeclinedLoops := do
  let file := "declined.graft"
  let int := some PrimitiveType.int.id
  atLine file 3
  let i ← newVar "i" int
  let defineI ← define i
  atLine file 4
  let low ← newInt 0
  let high ← newInt 4
  let ret ← newReturn none
  let jumping ← newForLoop [i] [low, high] ret true
  atLine file 2
  let defineJumps ← defineFn "jumps" [defineI, jumping] true
  atLine file 7
  let i ← newVar "i" int
  let defineI ← define i
  atLine file 8
  let j ← newVar "j" int
  let defineJ ← define j
  atLine file 9
  let low ← newInt 0
  let high ← newInt 4
  let assign ← newPrimitiveCall .move [i, j]
  let paired ← newForLoop [i, j] [low, high] assign true
  atLine file 6
  let definePairs ← defineFn "pairs" [defineI, defineJ, paired] true
  atLine file 12
  let k ← newVar "k" int
  let defineK ← define k
  atLine file 13
  let low ← newInt 0
  let high ← newInt 4
  let nothing ← newBlock []
  let ordered ← newForLoop [k] [low, high] nothing false
  atLine file 11
  let defineOrdered ← defineFn "ordered" [defineK, ordered] true
  atLine file 16
  let m ← newVar "m" int
  let defineM ← define m
  atLine file 17
  let low ← newInt 0
  let high ← newInt 4
  let nothing ← newBlock []
  let unmarked ← newForLoop [m] [low, high] nothing true
  atLine file 15
  let defineUnmarked ← defineFn "unmarked" [defineM, unmarked] false
  atLine file 1
  let module ←
    newModule "declined" .user [defineJumps, definePairs, defineOrdered, defineUnmarked]
  finishModule module
  return { module, jumping, paired, ordered, unmarked }

end Edit

/-- A sample program. -/
inductive Sample where
  | vectorScale
  | nestedOffload
  | declinedLoops
deriving DecidableEq

namespace Sample

def all : List Sample := [vectorScale, nestedOffload, declinedLoops]

def name : Sample → String
  | vectorScale => "vector_scale"
  | nestedOffload => "nested_offload"
  | declinedLoops => "declined_loops"

def ofName? (name : String) : Option Sample :=
  all.find? (·.name = name)

/-- The edit that builds a sample. -/
def edit : Sample → Edit Unit
  | vectorScale => do let _ ← Edit.vectorScale
  | nestedOffload => do let _ ← Edit.nestedOffload 1
  | declinedLoops => do let _ ← Edit.declinedLoops

/-- A program that holds the sample. -/
def program (sample : Sample) (settings : Settings) : Except Fault Program :=
  return (← sample.edit.run (.empty settings)).2

end Sample

end ProgramTree
