import DataBinding.Scope.Script

/-! Running scripts. The values that a script refers to are kept in order beside the
world. A script may ask for a digest; how that runs is a parameter here, and a digest that
gets no answer leaves the whole run without one. -/
namespace DataBinding

variable {κ σ α : Type}

/-- A digest of a world, if it comes to an end. -/
abbrev Digest (κ σ : Type) := World κ σ → Option (Except Divergence Unit × World κ σ)

/-- The value that a reference stands for. -/
def Ref.value (values : List Value) (ref : Ref) : Value := (values[ref.index]?).getD .undefined

/-- The container that a reference stands for. -/
def Ref.handle? (values : List Value) (ref : Ref) : Option Handle :=
  match ref.value values with
  | .container h => some h
  | _ => none

namespace Obtain

def run (op : Obtain) (values : List Value) (w : World κ σ) : Value × World κ σ :=
  let keepHeap := fun (built : Value × Heap) => (built.1, { w with heap := built.2 })
  match op with
  | .undefined => (.undefined, w)
  | .literal value => (value.value, w)
  | .array items => keepHeap (w.heap.newArray (items.map (·.value values)))
  | .object entries =>
    keepHeap (w.heap.newObject (entries.map fun entry => (entry.1, entry.2.value values)))
  | .json document => keepHeap (w.heap.ofJson document)
  | .member holder key => (w.heap.member (holder.value values) key, w)
  | .memberAt holder key => (w.heap.memberAt (holder.value values) (key.value values), w)
  | .copy v => keepHeap (w.heap.deepCopy (v.value values))
  | .data => (w.data, w)
  | .get key => (w.get key, w)
  | .kept name => ((w.kept.get? name).getD .undefined, w)
  | .call accessor context locals =>
    w.call accessor ⟨context.map (·.value values), locals.map (·.value values)⟩

end Obtain

namespace Change

def onContainer (w : World κ σ) (h : Option Handle) (f : Handle → Heap) : World κ σ :=
  match h with
  | some h => { w with heap := f h }
  | none => w

def run (op : Change) (values : List Value) (w : World κ σ) : World κ σ :=
  match op with
  | .push array v => onContainer w (array.handle? values) fun h => w.heap.push h (v.value values)
  | .pop array => onContainer w (array.handle? values) fun h => w.heap.pop h
  | .store array index v =>
    onContainer w (array.handle? values) fun h => w.heap.store h index (v.value values)
  | .insert object key v =>
    onContainer w (object.handle? values) fun h => w.heap.insert h key (v.value values)
  | .erase object key => onContainer w (object.handle? values) fun h => w.heap.erase h key
  | .set key v => w.set key (v.value values)
  | .keep name v => { w with kept := w.kept.insert name (v.value values) }

end Change

/-- A new value takes the next reference. -/
def Ref.next (values : List Value) : Ref := ⟨values.length⟩

namespace Op

/-- Performs one operation. -/
def run (digest : Digest κ σ) (values : List Value) (w : World κ σ) :
    (op : Op κ σ) → Option (op.Answer × List Value × World κ σ)
  | .obtain op =>
    let (v, w) := op.run values w
    some (Ref.next values, values ++ [v], w)
  | .change op => some ((), values, op.run values w)
  | .look refs => some (w.heap.extract (refs.map (·.value values)), values, w)
  | .evalExpr text locals =>
    match w.evalExpr text (locals.map (·.value values)) with
    | (.ok v, w) => some (.ok (Ref.next values), values ++ [v], w)
    | (.error fault, w) => some (.error fault, values, w)
  | .register callable listener comparison =>
    let (id, w) := w.register (.callable callable) listener comparison
    some (id, values, w)
  | .watchExpr text listener comparison =>
    let (result, w) := w.watchExpr text listener comparison
    some (result, values, w)
  | .deregister watcher => some ((), values, w.deregister watcher)
  | .status => some ((w.scope.watchers.length, w.scope.config), values, w)
  | .inspect => some (w.debugText, values, w)
  | .client f => some (w.client, values, { w with client := f w.client })
  | .note message => some ((), values, w.report (.note message))
  | .digest => (digest w).map fun (outcome, w) => (outcome, values, w)
  | .reportDivergence divergence => some ((), values, w.report (.applyDiverged divergence))

end Op

namespace Script

/-- Runs a script to its end. -/
def run (digest : Digest κ σ) :
    Script κ σ α → List Value → World κ σ → Option (Exit α × List Value × World κ σ)
  | .pure a, values, w => some (.returned a, values, w)
  | .panic p, values, w => some (.panicked p, values, w)
  | .perform op next, values, w =>
    match op.run digest values w with
    | some (answer, values, w) => (next answer).run digest values w
    | none => none

end Script
end DataBinding
