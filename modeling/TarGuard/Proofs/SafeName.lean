import TarGuard.Proofs.Grammar

namespace TarGuard

namespace EntryPath

variable {limits : Limits} {bound : UInt64} {name : String}

namespace IsSafeComponent

variable (h : IsSafeComponent bound name)

include h

theorem split_eq : split name = [name] := by
  have hp : ∀ w ∈ [name], IsPiece w := List.forall_mem_singleton.mpr h.isOrdinary.isPiece
  have hs := split_intercalate hp (List.cons_ne_nil _ _)
  rwa [String.intercalate_singleton] at hs

theorem isPlain : ∀ c ∈ name.toList, FieldText.IsPlain c :=
  fun c hc => isPlain_of_isAllowed (h.isAllowed c hc)

theorem length_eq : name.length = name.utf8ByteSize := by
  have hlength := Utf8.length_encode name
  rwa [FieldText.encode_of_isPlain h.isPlain, List.length_map, String.length_toList] at hlength

theorem holds {width : Nat} (hw : name.utf8ByteSize ≤ width) : FieldText.Holds width name :=
  ⟨h.isPlain, h.length_eq ▸ hw⟩

end IsSafeComponent

theorem components_of_isSafeComponent (h : IsSafeComponent limits.componentLength name)
    (hp : name.utf8ByteSize ≤ limits.pathLength.toNat) (hd : 1 ≤ limits.pathDepth.toNat) :
    components limits name = .ok [name] :=
  Spells.components_eq {
    text   := .inl String.intercalate_singleton.symm
    ne_nil := List.cons_ne_nil _ _
    size   := hp
    depth  := hd
    isWord := List.forall_mem_singleton.mpr (isSafeComponent_iff.mp h)
  }

end EntryPath

end TarGuard
