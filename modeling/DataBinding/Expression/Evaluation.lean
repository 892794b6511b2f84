import DataBinding.Program.Run

/-! Expressions evaluated directly, without a program: what an expression means. The rules are
written out here; that programs follow the same ones is to be proved. -/
namespace DataBinding.Expression

/-- A name is read from the locals if they are truthy and have it, else from the context if
that is truthy. -/
def lookup (arguments : Arguments) (heap : Heap) (name : String) : Value :=
  match arguments.locals.filter fun locals => locals.isTruthy && heap.hasKey locals name with
  | some holder => heap.member holder name
  | none =>
    match arguments.context.filter Value.isTruthy with
    | some holder => heap.member holder name
    | none => .undefined

theorem nodup_eraseDups (names : List String) : names.eraseDups.Nodup := by
  match names with
  | [] => exact .nil
  | name :: rest =>
    rw [List.eraseDups_cons, List.nodup_cons]
    exact ⟨by simp, nodup_eraseDups _⟩
  termination_by names.length
  decreasing_by exact Nat.lt_succ_of_le (List.length_filter_le _ rest)

/-- The members that entries give: each name where its first entry stands, with the value of its
last one. -/
def membersOf (entries : List (String × Value)) : Members Value where
  entries := (entries.map Prod.fst).eraseDups.map fun name =>
    (name, (entries.reverse.lookup name).getD .undefined)
  distinct := by
    simpa [Function.comp_def] using nodup_eraseDups _

mutual

/-- The value of an expression, and the heap with the containers built for it. A member of
what is not truthy is undefined, and its key is not evaluated then. -/
def evaluate (arguments : Arguments) (heap : Heap) : Expression → Value × Heap
  | .program body => evaluate arguments heap body
  | .literal .null => (.null, heap)
  | .literal (.bool b) => (.bool b, heap)
  | .literal (.number n) => (.number n, heap)
  | .literal (.string s) => (.string s, heap)
  | .array elements =>
    let (items, heap) := evaluateElements arguments heap elements
    let (h, heap) := heap.alloc (.array items)
    (.container h, heap)
  | .object properties =>
    let (entries, heap) := evaluateProperties arguments heap properties
    let (h, heap) := heap.alloc (.object (membersOf entries))
    (.container h, heap)
  | .identifier name => (lookup arguments heap name, heap)
  | .this => (arguments.context.getD .undefined, heap)
  | .locals => (arguments.locals.getD .undefined, heap)
  | .member holder property computed =>
    let (v, heap) := evaluate arguments heap holder
    if v.isTruthy then
      match property, computed with
      | .identifier name, false => (heap.member v name, heap)
      | key, _ =>
        let (key, heap) := evaluate arguments heap key
        (heap.memberAt v key, heap)
    else (.undefined, heap)

def evaluateElements (arguments : Arguments) (heap : Heap) :
    List Expression → List Value × Heap
  | [] => ([], heap)
  | element :: rest =>
    let (first, heap) := evaluate arguments heap element
    let (others, heap) := evaluateElements arguments heap rest
    (first :: others, heap)

def evaluateProperties (arguments : Arguments) (heap : Heap) :
    List (String × Expression) → List (String × Value) × Heap
  | [] => ([], heap)
  | (key, value) :: rest =>
    let (first, heap) := evaluate arguments heap value
    let (others, heap) := evaluateProperties arguments heap rest
    ((key, first) :: others, heap)

end

end DataBinding.Expression
