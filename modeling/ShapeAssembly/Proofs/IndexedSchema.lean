import Mathlib.Data.List.Induction
import Mathlib.Data.List.Sort
import Std.Data.TreeSet.Lemmas
import ShapeAssembly.Proofs.ArgumentList
import ShapeAssembly.RawArgument

namespace ShapeAssembly

/-- A keyword with its arities, and with a signature for each of them. -/
structure IndexedSchema where
  name : String
  usage : Usage
  arities : Std.TreeSet Nat
  kinds : Std.TreeMap Nat Signature

namespace IndexedSchema

def ofSignatures (name : String) (usage : Usage) (signatures : List Signature) : IndexedSchema :=
  let kinds := signatures.foldl (fun all s => all.insert s.length s) ∅
  ⟨name, usage, .ofList kinds.keys, kinds⟩

def acceptsArity (s : IndexedSchema) (n : Nat) : Bool := s.arities.contains n

def signature? (s : IndexedSchema) (n : Nat) : Option Signature := s.kinds[n]?

/-- Reads each argument as the kind at its position. Where there is no signature, the fault covers
the arguments, or their list if it is empty. -/
def validate (schema : IndexedSchema) (args : List RawArgument) (list : Span) (scope : Scope) :
    Except Fault (List Argument) :=
  match schema.signature? args.length with
  | some kinds =>
    ((args.zip kinds).zipIdx 1).mapM fun ((a, kind), position) =>
      a.coerce schema.name position kind scope
  | none =>
    let span := match args.head?, args.getLast? with
      | some first, some last => first.span.merge last.span
      | _, _ => list
    .error ⟨.arity schema.name schema.arities.toList args.length, span⟩

end IndexedSchema

def Signature.lastOf? (n : Nat) (signatures : List Signature) : Option Signature :=
  (signatures.filter (·.length = n)).getLast?

namespace Signature

variable {s t : Signature} {all signatures : List Signature} {n : Nat}

theorem lastOf?_append_singleton (n : Nat) (signatures : List Signature) (s : Signature) :
    lastOf? n (signatures ++ [s]) = if s.length = n then some s else lastOf? n signatures := by
  rw [lastOf?, List.filter_append, List.filter_singleton]
  by_cases h : s.length = n
  · simp [h]
  · simp [h, lastOf?]

theorem length_of_lastOf? (h : lastOf? n signatures = some s) : s.length = n :=
  of_decide_eq_true (List.mem_filter.1 (List.mem_of_getLast? h)).2

theorem lastOf?_eq_none : lastOf? n signatures = none ↔ ∀ s ∈ signatures, s.length ≠ n := by
  rw [lastOf?, List.getLast?_eq_none_iff, List.filter_eq_nil_iff]
  simp only [decide_eq_true_eq]

theorem mem_of_mem_insert (h : t ∈ s.insert all) : t = s ∨ t ∈ all := by
  induction all with
  | nil => exact .inl (List.mem_singleton.1 h)
  | cons u all ih =>
    rw [insert] at h
    split at h
    · exact List.mem_cons.1 h
    · split at h
      · exact (List.mem_cons.1 h).imp_right (List.mem_cons_of_mem u)
      · rcases List.mem_cons.1 h with rfl | h
        · exact .inr List.mem_cons_self
        · exact (ih h).imp_right (List.mem_cons_of_mem u)

theorem pairwise_insert (h : all.Pairwise (·.length < ·.length)) :
    (s.insert all).Pairwise (·.length < ·.length) := by
  induction all with
  | nil => exact List.pairwise_singleton _ _
  | cons u all ih =>
    obtain ⟨hu, hall⟩ := List.pairwise_cons.1 h
    rw [insert]
    split
    · rename_i hlt
      exact .cons (List.forall_mem_cons.2 ⟨hlt, fun t ht => hlt.trans (hu t ht)⟩) h
    · split
      · rename_i heq
        exact .cons (fun t ht => heq ▸ hu t ht) hall
      · refine .cons (fun t ht => ?_) (ih hall)
        rcases mem_of_mem_insert ht with rfl | ht
        · omega
        · exact hu t ht

theorem find?_insert (s : Signature) (all : List Signature) (n : Nat) :
    (s.insert all).find? (·.length = n) =
      if s.length = n then some s else all.find? (·.length = n) := by
  induction all with
  | nil => simp [insert]
  | cons u all ih =>
    rw [insert]
    by_cases hlt : s.length < u.length
    · rw [if_pos hlt, List.find?_cons]
      by_cases hn : s.length = n <;> simp [hn]
    · rw [if_neg hlt]
      by_cases heq : s.length = u.length
      · rw [if_pos heq, List.find?_cons, List.find?_cons, ← heq]
        by_cases hn : s.length = n <;> simp [hn]
      · rw [if_neg heq, List.find?_cons, List.find?_cons, ih]
        by_cases hn : u.length = n
        · simp [hn, show s.length ≠ n from fun h => heq (h.trans hn.symm)]
        · simp [hn]

end Signature

namespace Schema

variable {name : String} {usage : Usage}

theorem signature?_ofSignatures (name : String) (usage : Usage) (signatures : List Signature)
    (n : Nat) : (ofSignatures name usage signatures).signature? n = Signature.lastOf? n signatures := by
  induction signatures using List.reverseRecOn with
  | nil => rfl
  | append_singleton signatures s ih =>
    rw [Signature.lastOf?_append_singleton, ← ih, ofSignatures, List.foldl_append]
    exact Signature.find?_insert s _ n

theorem pairwise_signatures (name : String) (usage : Usage) (signatures : List Signature) :
    (ofSignatures name usage signatures).signatures.Pairwise (·.length < ·.length) :=
  List.foldlRecOn signatures _ List.Pairwise.nil fun _ h _ _ => Signature.pairwise_insert h

theorem pairwise_arities (name : String) (usage : Usage) (signatures : List Signature) :
    (ofSignatures name usage signatures).arities.Pairwise (· < ·) :=
  List.pairwise_map.2 (pairwise_signatures name usage signatures)

theorem mem_arities {schema : Schema} {n : Nat} :
    n ∈ schema.arities ↔ (schema.signature? n).isSome = true := by
  rw [arities, signature?, List.find?_isSome, List.mem_map]
  simp only [decide_eq_true_eq]

theorem mem_arities_ofSignatures {signatures : List Signature} {n : Nat} :
    n ∈ (ofSignatures name usage signatures).arities ↔ ∃ s ∈ signatures, s.length = n := by
  rw [mem_arities, signature?_ofSignatures, Option.isSome_iff_ne_none, Ne,
    Signature.lastOf?_eq_none]
  simp only [not_forall, not_not, exists_prop]

end Schema

namespace IndexedSchema

theorem signature?_ofSignatures (name : String) (usage : Usage) (signatures : List Signature)
    (n : Nat) : (ofSignatures name usage signatures).signature? n = Signature.lastOf? n signatures := by
  induction signatures using List.reverseRecOn with
  | nil => exact Std.TreeMap.getElem?_emptyc
  | append_singleton signatures s ih =>
    rw [Signature.lastOf?_append_singleton, ← ih, signature?, ofSignatures, List.foldl_append]
    show (Std.TreeMap.insert _ _ _)[n]? = _
    rw [Std.TreeMap.getElem?_insert]
    simp only [Nat.compare_eq_eq]
    rfl

theorem mem_arities {name : String} {usage : Usage} {signatures : List Signature} {n : Nat} :
    n ∈ (ofSignatures name usage signatures).arities ↔
      ((ofSignatures name usage signatures).signature? n).isSome = true := by
  rw [ofSignatures, Std.TreeSet.mem_ofList, List.contains_iff_mem, Std.TreeMap.mem_keys,
    Std.TreeMap.mem_iff_isSome_getElem?]
  rfl

/-- Both forms of a schema know the same signatures. -/
theorem toList_arities (name : String) (usage : Usage) (signatures : List Signature) :
    (ofSignatures name usage signatures).arities.toList =
      (Schema.ofSignatures name usage signatures).arities := by
  have hpairwise : (ofSignatures name usage signatures).arities.toList.Pairwise (· < ·) :=
    Std.TreeSet.ordered_toList.imp Nat.compare_eq_lt.1
  refine hpairwise.eq_of_mem_iff (Schema.pairwise_arities name usage signatures) fun n => ?_
  rw [Std.TreeSet.mem_toList, mem_arities, Schema.mem_arities, signature?_ofSignatures,
    Schema.signature?_ofSignatures]

end IndexedSchema

end ShapeAssembly
