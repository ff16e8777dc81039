import Mathlib.Data.List.AList
import NanomsgDemo.Config.TinyXmlNodes

/-!
# Properties

`libproperties-1.0/include/libproperties.h`: pairs of a key and a value, and the XML file
they are stored in and loaded from. The servers take their ports from such a file.
-/

namespace NanomsgDemo.Config

open Net (Byte text)

/-- `Properties`. -/
structure Properties where
  keyValue : AList fun _ : List Byte => List Byte

namespace Properties

def init : Properties := ⟨∅⟩

/-- `Properties::setProperty`. -/
def setProperty (p : Properties) (key value : List Byte) : Properties :=
  if key ∈ p.keyValue then ⟨p.keyValue.replace key value⟩ else ⟨p.keyValue.insert key value⟩

/-- `Properties::getProperty`. -/
def getProperty (p : Properties) (key defaultvalue : List Byte) : List Byte :=
  (p.keyValue.lookup key).getD defaultvalue

/-- `Properties::clear`. -/
def clear (_ : Properties) : Properties := init

/-- `TiXmlElement::GetText`. -/
def getText : List Node → Option (List Byte)
  | .text v _ :: _ => some v
  | _ => none

/-- The loop of `loadFromXML` over the elements `"entry"`. -/
def loadEntries (p : Properties) : List Node → Run Properties
  | [] => .ok p
  | .element name attributes children :: nodes =>
      if cStr name = text "entry" then
        -- neither `FirstAttribute()` nor `GetText()` may be null
        match attributes.head?, getText children with
        | some att, some value => loadEntries (p.setProperty (cStr att.2) (cStr value)) nodes
        | _, _ => .error .undefined
      else loadEntries p nodes
  | _ :: nodes => loadEntries p nodes

/-- `Properties::loadFromXML` of what is in the file, if it can be opened. -/
def loadFromXML (p : Properties) (file : Option (List Byte)) : Run (Properties × Bool) := do
  let (nodes, error) ← loadFile file
  if error then return (p, false)
  else
    match nodes.find? fun n => cStr n.value = text "properties" with
    | some (.element _ _ children) => return (← loadEntries p children, true)
    | _ => .error .undefined    -- there is no such node, or it is no element

/-- The document that `storeToXML` makes. -/
def document (entries : List (List Byte × List Byte)) : List Node :=
  [.declarationWithoutStandalone (text "1.0") (text "UTF-8"),
    .doctype (text "properties SYSTEM \"http://java.sun.com/dtd/properties.dtd\""),
    .comment (text "This file is created by libproperties"),
    .comment (text "read more from http://code.google.com/p/libproperties"),
    .element (text "properties") [] (entries.map fun e =>
      .element (text "entry") [(text "key", e.1)] [.text e.2 false])]

/-- `Properties::storeToXML`, which comes upon the pairs in the order `entries`. -/
def storeToXML (crlf : Bool) (entries : List (List Byte × List Byte)) : List Byte :=
  saveFile crlf (document entries)

/-! ## Lookups -/

theorem dlookup_kreplace {α β : Type} [DecidableEq α] {a : α} {b : β}
    {l : List (Sigma fun _ : α => β)} (h : a ∈ l.keys) (k : α) :
    (l.kreplace a b).dlookup k = if k = a then some b else l.dlookup k := by
  have hcons : ∀ (x : α) (y : β) (m : List (Sigma fun _ : α => β)),
      (⟨x, y⟩ :: m : List (Sigma fun _ : α => β)).dlookup k =
        if k = x then some y else m.dlookup k := by
    intro x y m
    split
    · rename_i heq
      rw [heq]
      exact List.dlookup_cons_eq m x y
    · rename_i hne
      exact List.dlookup_cons_ne m ⟨x, y⟩ hne
  induction l with
  | nil => exact absurd h List.not_mem_nil
  | cons e l ih =>
      obtain ⟨x, y⟩ := e
      by_cases hx : a = x
      · subst hx
        have hreplace : (⟨a, y⟩ :: l : List (Sigma fun _ : α => β)).kreplace a b = ⟨a, b⟩ :: l :=
          List.lookmap_cons_some _ l (dif_pos rfl)
        rw [hreplace, hcons, hcons]
        split <;> rfl
      · have hreplace : (⟨x, y⟩ :: l : List (Sigma fun _ : α => β)).kreplace a b =
            ⟨x, y⟩ :: l.kreplace a b := List.lookmap_cons_none _ l (dif_neg hx)
        have hin : a ∈ l.keys := by
          rw [List.keys_cons] at h
          exact (List.mem_cons.mp h).resolve_left hx
        rw [hreplace, hcons, hcons, ih hin]
        by_cases hk : k = x
        · rw [if_pos hk, if_pos hk, if_neg fun ha => hx (ha.symm.trans hk)]
        · rw [if_neg hk, if_neg hk]

theorem lookup_setProperty (p : Properties) (key value k : List Byte) :
    (p.setProperty key value).keyValue.lookup k =
      if k = key then some value else p.keyValue.lookup k := by
  unfold setProperty
  split
  · rename_i hmem
    exact dlookup_kreplace hmem k
  · split
    · rename_i heq
      rw [heq]
      exact AList.lookup_insert p.keyValue
    · rename_i hne
      exact AList.lookup_insert_ne hne

/-- Pairs that are set one after the other, with the last one for a key counting. -/
theorem lookup_setProperties (es : List (List Byte × List Byte)) (p : Properties) (k : List Byte) :
    (es.foldl (fun p e => p.setProperty e.1 e.2) p).keyValue.lookup k =
      (es.reverse.lookup k).or (p.keyValue.lookup k) := by
  induction es generalizing p with
  | nil => rfl
  | cons e es ih =>
      rw [List.foldl_cons, ih, lookup_setProperty, List.reverse_cons, List.lookup_append,
        Option.or_assoc]
      congr 1
      obtain ⟨key, value⟩ := e
      rw [List.lookup_cons]
      by_cases hk : k = key
      · rw [if_pos hk, beq_iff_eq.mpr hk]
        rfl
      · rw [if_neg hk, beq_eq_false_iff_ne.mpr hk]
        rfl

end Properties

end NanomsgDemo.Config
