import SkewHash.Lib.Memory

/-! Pointers into an allocation that has been continued.  What has been read from the shorter one is
read from the longer one too. -/

namespace SkewHash.Lib.Ptr

/-- The same place in an allocation that goes on behind the end of the first. -/
structure Grows (p q : Ptr) : Prop where
  mem : p.mem <+: q.mem
  off : q.off = p.off

variable {p q : Ptr} {n : Nat}

theorem grows_append (mem more : List UInt8) (off : Nat) :
    (⟨mem, off⟩ : Ptr).Grows ⟨mem ++ more, off⟩ := ⟨List.prefix_append _ _, rfl⟩

theorem Grows.add (h : p.Grows q) (k : Nat) : (p.add k).Grows (q.add k) :=
  ⟨h.mem, congrArg (· + k) h.off⟩

theorem Grows.bytes {bs : List UInt8} (h : p.Grows q) (hread : p.bytes n = some bs) :
    q.bytes n = some bs := by
  obtain ⟨mem, off⟩ := p
  obtain ⟨mem', off'⟩ := q
  obtain ⟨⟨more, hmore⟩, hoff⟩ := h
  simp only at hmore hoff
  subst hmore hoff
  exact (bytes_append more (fits_of_bytes hread)).trans hread

theorem Grows.word {w v : Nat} (h : p.Grows q) (hread : p.word w = some v) : q.word w = some v := by
  obtain ⟨bs, hbs, rfl⟩ := Option.map_eq_some_iff.mp hread
  rw [Ptr.word, h.bytes hbs, Option.map_some]

theorem Grows.byte {b : UInt8} (h : p.Grows q) (hread : p.byte = some b) : q.byte = some b := by
  obtain ⟨more, hmore⟩ := h.mem
  obtain ⟨hlt, -⟩ := List.getElem?_eq_some_iff.mp hread
  rw [Ptr.byte, h.off, ← hmore, List.getElem?_append_left hlt]
  exact hread

end SkewHash.Lib.Ptr
