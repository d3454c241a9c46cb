/-
The words that are defined in terms of the primitives, as source text with its comments.  Control words
are immediate: while a definition is compiled they append jumps, and keep the addresses that are still to
be filled in on the data stack.
-/

namespace Forth.Library

/-- What the text says of itself. -/
def heading : List String :=
  ["( bootstrap words, evaluated as ordinary source on top of the primitives )",
   ""]

/-- Juggling of the topmost cells. -/
def juggling : List String :=
  ["( stack juggling )",
   ": over >r dup r> swap ;",
   ": rot >r swap r> swap ;",
   ": -rot rot rot ;",
   ": nip swap drop ;",
   ": tuck swap over ;",
   ": 2dup over over ;",
   ": 2drop drop drop ;",
   ""]

/-- The comparisons that are not primitive. -/
def comparison : List String :=
  ["( comparison )",
   ": != = not ;",
   ": > swap < ;",
   ": <= > not ;",
   ": >= < not ;",
   ""]

def arithmetic : List String :=
  ["( arithmetic )",
   ": 1+ 1 + ;",
   ": 1- 1 - ;",
   ""]

/-- Branches and loops.  Each compiles a jump followed by an offset, which counts from the cell that
holds it to the target. -/
def control : List String :=
  ["( control flow, compiled into the enclosing definition as jmp / jmp#f",
   "  followed by an offset cell relative to that cell )",
   ": if ['] jmp#f , here 0 , ; immediate",
   ": then here over - swap ! ; immediate",
   ": else ['] jmp , here 0 , swap here over - swap ! ; immediate",
   ": begin here ; immediate",
   ": until ['] jmp#f , here - , ; immediate",
   ": again ['] jmp , here - , ; immediate",
   ": while ['] jmp#f , here 0 , ; immediate",
   ": repeat swap ['] jmp , here - , here over - swap ! ; immediate",
   ""]

/-- Counted loops.  Limit and index live on the return stack, the index on top. -/
def counted : List String :=
  ["( limit start do ... loop, index and limit live on the return stack )",
   ": do ['] swap , ['] >r , ['] >r , here ; immediate",
   ": loop",
   "  ['] r> , ['] lit , 1 , ['] + , ['] r> , ['] 2dup , ['] >r , ['] >r ,",
   "  ['] < , ['] not , ['] jmp#f , here - ,",
   "  ['] r> , ['] r> , ['] 2drop , ; immediate",
   ""]

/-- The words whose definitions already use control words. -/
def extremes : List String :=
  [": min 2dup < if drop else nip then ;",
   ": max 2dup > if drop else nip then ;"]

/-- The lines of the library, in order. -/
def lines : List String :=
  heading ++ juggling ++ comparison ++ arithmetic ++ control ++ counted ++ extremes

/-- The library as one text. -/
def text : List Char :=
  lines.flatMap fun line => line.toList ++ ['\n']

/-- The name under which failures in the library are located. -/
def name : String := "lib/core.fs"

end Forth.Library
