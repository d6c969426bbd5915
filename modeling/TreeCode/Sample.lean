/-
# Sample programs

Ready-made programs that exercise every part of the back end: recursion, arrays
passed by address, access to variables of enclosing functions, static data, loops,
output, pointers into records, and three ways to fail. Each has a description and
an argument to start it with. They are listed by name.
-/

import TreeCode.Source.Node

namespace TreeCode

/-- A ready-made program. -/
structure Sample where
  name : String
  description : String
  /-- The argument that the program is started with if no other is given. -/
  arg : Word
  program : Source.Program

namespace Sample

open Source (Node Op Symbol)
open Source.Node (number ident binary unary member call sequence within branch whileLoop forLoop
  funDecl varDecl typeDecl)

/-- An integer variable or parameter, or a function with an integer result. -/
def integer (id : Nat) (name : String) : Symbol :=
  ⟨id, name, .integer⟩

/-- The sum of two nodes. -/
def add (x y : Node) : Node :=
  binary .add x y

/-- The product of two nodes. -/
def mul (x y : Node) : Node :=
  binary .mul x y

/-- The difference of two nodes. -/
def sub (x y : Node) : Node :=
  binary .sub x y

/-- The assignment of a value to a place. -/
def assign (target source : Node) : Node :=
  binary .assign target source

/-- The element of an array at an index. -/
def element (array index : Node) : Node :=
  binary .index array index

/-- A function with an integer result. -/
def function (decl : Symbol) (params : List Symbol) (body : Node) : Node :=
  funDecl decl params (some body)

/-- The parameter of the entry function. -/
def argument : Symbol :=
  integer 0 "i"

/-- The entry function with the given body. -/
def entry (body : Node) : Node :=
  function (integer 1 "_main") [argument] body

/-- A program without declared types. -/
def ofDefs (defs : List Node) : Source.Program :=
  ⟨[], defs⟩

/-- A sum over the elements of an array that is passed by address. -/
def arraySum : Source.Program :=
  let vector := Ty.array 4 .integer
  let sum := integer 2 "sum"
  let v : Symbol := ⟨3, "v", vector⟩
  let t := integer 4 "t"
  let j := integer 5 "j"
  let a : Symbol := ⟨6, "a", vector⟩
  ofDefs [
    function sum [v]
      (within
        (sequence [
          assign (ident t) (number 0),
          forLoop (ident j) (number 0) (number 4) (number 1)
            (assign (ident t) (add (ident t) (element (ident v) (ident j)))),
          ident t])
        [varDecl t, varDecl j]),
    entry
      (within
        (sequence [
          assign (element (ident a) (number 0)) (number 1),
          assign (element (ident a) (number 1)) (number 2),
          assign (element (ident a) (number 2)) (number 3),
          assign (element (ident a) (number 3)) (number 4),
          call sum [ident a]])
        [varDecl a])]

/-- A division by zero inside a called function. -/
def divZero : Source.Program :=
  let guard := integer 2 "guard"
  let div := integer 3 "div"
  let a := integer 4 "a"
  let b := integer 5 "b"
  ofDefs [
    varDecl guard,
    function div [a, b] (binary .div (ident a) (ident b)),
    entry
      (sequence [
        assign (ident guard) (number 42),
        call div [ident argument, sub (ident argument) (ident argument)]])]

/-- The factorial by recursion. -/
def factorial : Source.Program :=
  let fact := integer 2 "fact"
  let n := integer 3 "n"
  ofDefs [
    function fact [n]
      (branch true (binary .le (ident n) (number 1)) (number 1)
        (some (mul (ident n) (call fact [sub (ident n) (number 1)])))),
    entry (call fact [ident argument])]

/-- A static array that one function fills and another one sums up. -/
def globals : Source.Program :=
  let table : Symbol := ⟨2, "table", .array 5 .integer⟩
  let fill : Symbol := ⟨3, "fill", .void⟩
  let n := integer 4 "n"
  let k := integer 5 "k"
  let total := integer 6 "total"
  let s := integer 7 "s"
  let k2 := integer 8 "k"
  ofDefs [
    varDecl table,
    function fill [n]
      (within
        (forLoop (ident k) (number 0) (number 5) (number 1)
          (assign (element (ident table) (ident k)) (mul (ident k) (ident n))))
        [varDecl k]),
    function total []
      (within
        (sequence [
          assign (ident s) (number 0),
          forLoop (ident k2) (number 0) (number 5) (number 1)
            (assign (ident s) (add (ident s) (element (ident table) (ident k2)))),
          ident s])
        [varDecl s, varDecl k2]),
    entry (sequence [call fill [ident argument], call total []])]

/-- String literals and the built-in output functions. -/
def hello : Source.Program :=
  let putStr : Symbol := ⟨2, "put_str", .void⟩
  let putInt : Symbol := ⟨3, "put_int", .void⟩
  let putNl : Symbol := ⟨4, "put_nl", .void⟩
  ofDefs [
    funDecl putStr [⟨5, "s", .string⟩] none,
    funDecl putInt [integer 6 "v"] none,
    funDecl putNl [] none,
    entry
      (sequence [
        call putStr [.string "hello, world".toUTF8.toList],
        call putNl [],
        call putInt [ident argument],
        call putNl [],
        number 0])]

/-- Variables of an enclosing function, two levels out and across recursion. -/
def nested : Source.Program :=
  let outer := integer 2 "outer"
  let x := integer 3 "x"
  let y := integer 4 "y"
  let middle := integer 5 "middle"
  let inner := integer 6 "inner"
  ofDefs [
    function outer [x]
      (within
        (sequence [
          assign (ident y)
            (branch true (binary .gt (ident x) (number 0))
              (call outer [sub (ident x) (number 1)]) (some (number 0))),
          call middle []])
        [varDecl y,
          function middle []
            (within (call inner [])
              [function inner [] (add (ident x) (mul (ident y) (number 10)))])]),
    entry (call outer [ident argument])]

/-- Arguments of a call, evaluated from left to right. -/
def order : Source.Program :=
  let log := integer 2 "log"
  let mark (decl : Symbol) (digit : Word) : Node :=
    function decl []
      (sequence [
        assign (ident log) (add (mul (ident log) (number 10)) (number digit)),
        number digit])
  let a := integer 3 "a"
  let b := integer 4 "b"
  let pair := integer 5 "pair"
  let x := integer 6 "x"
  let y := integer 7 "y"
  ofDefs [
    varDecl log,
    mark a 1,
    mark b 2,
    function pair [x, y] (add (mul (ident x) (number 10)) (ident y)),
    entry
      (sequence [
        assign (ident log) (number 0),
        add (mul (call pair [call a [], call b []]) (number 100)) (ident log)])]

/-- Prime numbers, counted with logical operators. -/
def primes : Source.Program :=
  let isPrime : Symbol := ⟨2, "isprime", .logical⟩
  let n := integer 3 "n"
  let d := integer 4 "d"
  let r : Symbol := ⟨5, "r", .logical⟩
  let c := integer 6 "c"
  let k := integer 7 "k"
  ofDefs [
    function isPrime [n]
      (within
        (sequence [
          assign (ident d) (number 2),
          assign (ident r) (binary .ge (ident n) (number 2)),
          whileLoop
            (binary .and (binary .le (mul (ident d) (ident d)) (ident n)) (ident r))
            (sequence [
              branch false (binary .eq (binary .mod (ident n) (ident d)) (number 0))
                (assign (ident r) (.logical false)) none,
              assign (ident d) (add (ident d) (number 1))]),
          ident r])
        [varDecl d, varDecl r]),
    entry
      (within
        (sequence [
          assign (ident c) (number 0),
          forLoop (ident k) (number 0) (ident argument) (number 1)
            (branch false (call isPrime [ident k])
              (assign (ident c) (add (ident c) (number 1))) none),
          ident c])
        [varDecl c, varDecl k])]

/-- Fields of a record, reached through a pointer. -/
def records : Source.Program :=
  let point := Ty.record "point" [("x", .integer), ("y", .integer)]
  let p : Symbol := ⟨2, "p", point⟩
  let q : Symbol := ⟨3, "q", .pointer point⟩
  let target := unary .deref (ident q)
  ofDefs [
    typeDecl ⟨4, "point", point⟩,
    varDecl p,
    entry
      (within
        (sequence [
          assign (member (ident p) "x") (ident argument),
          assign (member (ident p) "y") (mul (ident argument) (number 2)),
          assign (ident q) (unary .addr (ident p)),
          assign (member target "y") (add (member target "y") (number 1)),
          add (member (ident p) "x") (member (ident p) "y")])
        [varDecl q])]

/-- Recursion without an end. -/
def runaway : Source.Program :=
  let down := integer 2 "down"
  let n := integer 3 "n"
  ofDefs [
    function down [n] (call down [add (ident n) (number 1)]),
    entry (call down [ident argument])]

/-- Functions side by side whose variables have the same names. -/
def siblings : Source.Program :=
  let f := integer 2 "f"
  let fa := integer 3 "a"
  let fx := integer 4 "x"
  let g := integer 5 "g"
  let ga := integer 6 "a"
  let gx := integer 7 "x"
  ofDefs [
    function f [fa]
      (within
        (sequence [
          assign (ident fx) (mul (ident fa) (number 2)),
          call g [ident fa],
          ident fx])
        [varDecl fx]),
    function g [ga]
      (within
        (sequence [assign (ident gx) (add (ident ga) (number 100)), ident gx])
        [varDecl gx]),
    entry (add (mul (call f [ident argument]) (number 1000)) (call g [ident argument]))]

/-- A counting loop. -/
def countingLoop : Source.Program :=
  let n := integer 2 "n"
  ofDefs [
    entry
      (within
        (sequence [
          assign (ident n) (number 0),
          whileLoop (binary .lt (ident n) (ident argument))
            (assign (ident n) (add (ident n) (number 1))),
          ident n])
        [varDecl n])]

/-- An array index far outside of memory. -/
def wild : Source.Program :=
  let a : Symbol := ⟨2, "a", .array 4 .integer⟩
  ofDefs [entry (within (element (ident a) (ident argument)) [varDecl a])]

/-- All samples, by name. -/
def all : List Sample :=
  [⟨"arraysum", "sum of a local array passed by address", 0, arraySum⟩,
    ⟨"divzero", "division by zero inside a called function", 9, divZero⟩,
    ⟨"factorial", "recursive factorial", 5, factorial⟩,
    ⟨"globals", "global array filled by one function and summed by another", 3, globals⟩,
    ⟨"hello", "string literals and output builtins", 42, hello⟩,
    ⟨"nested", "non-local access two levels deep across recursion", 3, nested⟩,
    ⟨"order", "left-to-right evaluation of call arguments", 0, order⟩,
    ⟨"primes", "prime counting with logical operators", 30, primes⟩,
    ⟨"records", "struct members reached through a pointer", 4, records⟩,
    ⟨"runaway", "unbounded recursion", 0, runaway⟩,
    ⟨"siblings", "sibling functions with same-named locals", 7, siblings⟩,
    ⟨"while", "counting loop", 5, countingLoop⟩,
    ⟨"wild", "array index far outside memory", 1099511627776, wild⟩]

/-- The sample of a name. -/
def find? (name : String) : Option Sample :=
  all.find? fun s => s.name == name

end Sample

end TreeCode
