import ConfigRender.Block

/-! # Emitted items

What a producer emits: a block, a mapping that is flat already, a collection, or a
sequence of items.  Whatever it is, it stands for flattened blocks in emission order.
-/

namespace ConfigRender

mutual

/-- An ordinary part of a collection. -/
inductive Collection.Part where
  | block (m : Mapping)
  | nested (c : Collection)

/-- The blocks and outputs of one run of a factory, under the name of the factory. -/
structure Collection where
  name : String
  parts : List Collection.Part
  outputs : Mapping

end

instance : Inhabited Collection := ⟨⟨"", [], []⟩⟩

mutual

/-- The flattened blocks of a collection, those of nested ones in place. -/
def Collection.blocks : Collection → List Mapping
  | ⟨_, parts, _⟩ => Collection.partsBlocks parts
termination_by structural c => c

def Collection.Part.blocks : Collection.Part → List Mapping
  | .block m => [m]
  | .nested c => c.blocks
termination_by structural p => p

def Collection.partsBlocks : List Collection.Part → List Mapping
  | [] => []
  | part :: rest => part.blocks ++ Collection.partsBlocks rest
termination_by structural ps => ps

end

/-- What a producer emits. -/
inductive Item where
  | block (b : Block)
  | mapping (m : Mapping)
  | collection (c : Collection)
  | many (items : List Item)

instance : Inhabited Item := ⟨.many []⟩

namespace Item

mutual

/-- The flattened blocks of an item. -/
def blocks : Item → List Mapping
  | .block b => [b.flatten]
  | .mapping m => [m]
  | .collection c => c.blocks
  | .many items => listBlocks items

def listBlocks : List Item → List Mapping
  | [] => []
  | item :: rest => blocks item ++ listBlocks rest

end

theorem listBlocks_append (xs ys : List Item) :
    listBlocks (xs ++ ys) = listBlocks xs ++ listBlocks ys := by
  induction xs with
  | nil => rfl
  | cons x xs ih => simp [listBlocks, ih]

end Item

/-- What an emission expects to be sent back: an item of its own shape, or any. -/
inductive Shape where
  | block
  | mapping
  | collection
  | any
deriving DecidableEq

namespace Shape

/-- The values of a shape. -/
@[reducible] def Carrier : Shape → Type
  | .block => Block
  | .mapping => Mapping
  | .collection => Collection
  | .any => Item

/-- A value of a shape as an item. -/
def toItem : (s : Shape) → s.Carrier → Item
  | .block, b => .block b
  | .mapping, m => .mapping m
  | .collection, c => .collection c
  | .any, item => item

/-- An item as a value of a shape, if it is one. -/
def ofItem? : (s : Shape) → Item → Option s.Carrier
  | .block, .block b => some b
  | .mapping, .mapping m => some m
  | .collection, .collection c => some c
  | .any, item => some item
  | _, _ => none

@[simp] theorem ofItem?_toItem (s : Shape) (x : s.Carrier) : s.ofItem? (s.toItem x) = some x := by
  cases s <;> rfl

/-- The name of a shape in messages. -/
def name : Shape → String
  | .block => "tfrender::block::Block"
  | .mapping =>
    "indexmap::map::IndexMap<alloc::string::String, tfrender::value::Value>"
  | .collection => "tfrender::collection::Collection"
  | .any => "tfrender::producer::Yielded"

end Shape

end ConfigRender
