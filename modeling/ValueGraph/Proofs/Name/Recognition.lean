/-
  ValueGraph.Proofs.Name.Recognition

  Comparing methods are recognised by their texts.

  A signature is three names, and the standard table is written in reserved
  names.  Reserved names stand for the same texts in every table of names, so an
  entry of the standard table has the same three texts everywhere
  (`texts_of_standard`), and a signature with these texts is the one of the entry
  (`Signature.Named.eq`).  Whether a method is recognised therefore depends on
  its three texts alone, whatever was interned before them
  (`comparing_methods_by_text`).
-/
import ValueGraph.MethodTable
import ValueGraph.Proofs.Name.Interning

namespace ValueGraph

/-- The class, the name and the descriptor of every comparing method. -/
def comparingMethods : List (String × String × String) :=
  [("java/lang/String", "equals", "(Ljava/lang/Object;)Z"),
    ("java/util/Date", "equals", "(Ljava/lang/Object;)Z"),
    ("java/util/Date", "before", "(Ljava/util/Date;)Z"),
    ("java/util/Date", "after", "(Ljava/util/Date;)Z"),
    ("java/util/Calendar", "equals", "(Ljava/lang/Object;)Z"),
    ("java/util/Calendar", "before", "(Ljava/lang/Object;)Z"),
    ("java/util/Calendar", "after", "(Ljava/lang/Object;)Z"),
    ("java/sql/Date", "equals", "(Ljava/lang/Object;)Z"),
    ("java/sql/Date", "before", "(Ljava/util/Date;)Z"),
    ("java/sql/Date", "after", "(Ljava/util/Date;)Z"),
    ("java/sql/Time", "equals", "(Ljava/lang/Object;)Z"),
    ("java/sql/Time", "before", "(Ljava/util/Date;)Z"),
    ("java/sql/Time", "after", "(Ljava/util/Date;)Z"),
    ("java/sql/Timestamp", "equals", "(Ljava/sql/Timestamp;)Z"),
    ("java/sql/Timestamp", "before", "(Ljava/sql/Timestamp;)Z"),
    ("java/sql/Timestamp", "after", "(Ljava/sql/Timestamp;)Z")]

/-- How a comparing method compares, by its name. -/
def comparisonNamed? : String → Option RelOp
  | "equals" => some .eq
  | "before" => some .lt
  | "after" => some .gt
  | _ => none

namespace Signature

variable {names names' : NameTable} {sig sig' : Signature} {owner name descriptor : String}

/-- The three names of a signature stand for the three texts. -/
structure Named (names : NameTable) (sig : Signature) (owner name descriptor : String) : Prop where
  owner : names.Named owner sig.owner
  name : names.Named name sig.name
  descriptor : names.Named descriptor sig.descriptor

theorem Named.mono (hgrown : names.Extends names') (h : sig.Named names owner name descriptor) :
    sig.Named names' owner name descriptor :=
  ⟨h.owner.mono hgrown, h.name.mono hgrown, h.descriptor.mono hgrown⟩

/-- Three texts have at most one signature. -/
theorem Named.eq (h : sig.Named names owner name descriptor)
    (h' : sig'.Named names owner name descriptor) : sig = sig' := by
  have howner : sig.owner = sig'.owner := (h.owner.eq_iff h'.owner).mpr rfl
  have hname : sig.name = sig'.name := (h.name.eq_iff h'.name).mpr rfl
  have hdescriptor : sig.descriptor = sig'.descriptor :=
    (h.descriptor.eq_iff h'.descriptor).mpr rfl
  cases sig
  cases sig'
  cases howner
  cases hname
  cases hdescriptor
  rfl

/-- A signature has at most one triple of texts. -/
theorem Named.texts_eq {owner' name' descriptor' : String}
    (h : sig.Named names owner name descriptor)
    (h' : sig.Named names owner' name' descriptor') :
    (owner, name, descriptor) = (owner', name', descriptor') := by
  rw [(h.owner.eq_iff h'.owner).mp rfl, (h.name.eq_iff h'.name).mp rfl,
    (h.descriptor.eq_iff h'.descriptor).mp rfl]

/-- Interning a signature is interning its three texts, one after the other. -/
theorem intern_eq_internEach (names : NameTable) (owner name descriptor : String) :
    (Signature.intern names owner name descriptor).map
        (fun answer => ([answer.1.owner, answer.1.name, answer.1.descriptor], answer.2))
      = names.internEach [owner, name, descriptor] := by
  simp only [Signature.intern, NameTable.internEach]
  cases names.intern owner with
  | error full => rfl
  | ok first =>
      obtain ⟨a, names₁⟩ := first
      show Except.map _ (names₁.intern name >>= _) = (names₁.intern name >>= _) >>= _
      cases names₁.intern name with
      | error full => rfl
      | ok second =>
          obtain ⟨b, names₂⟩ := second
          show Except.map _ (names₂.intern descriptor >>= _)
            = ((names₂.intern descriptor >>= _) >>= _) >>= _
          cases names₂.intern descriptor with
          | error full => rfl
          | ok third => rfl

theorem internEach_of_intern
    (h : Signature.intern names owner name descriptor = .ok (sig, names')) :
    names.internEach [owner, name, descriptor]
      = .ok ([sig.owner, sig.name, sig.descriptor], names') := by
  rw [← intern_eq_internEach, h]
  rfl

theorem named_of_intern (h : Signature.intern names owner name descriptor = .ok (sig, names')) :
    sig.Named names' owner name descriptor := by
  have hnamed := NameTable.named_of_internEach (internEach_of_intern h)
  cases hnamed with | cons howner hnamed =>
  cases hnamed with | cons hname hnamed =>
  cases hnamed with | cons hdescriptor hnamed =>
  exact ⟨howner, hname, hdescriptor⟩

/-- A signature can be interned if its new texts fit into the table. -/
theorem exists_intern
    (hroom : (names.textSet ∪ {owner, name, descriptor}).card ≤ UInt32.size) :
    ∃ sig names', Signature.intern names owner name descriptor = .ok (sig, names') := by
  have htexts : [owner, name, descriptor].toFinset = {owner, name, descriptor} := by
    simp only [List.toFinset_cons, List.toFinset_nil, insert_empty_eq]
  rw [← htexts] at hroom
  obtain ⟨answers, names', hrun⟩ := NameTable.exists_internEach hroom
  rw [← intern_eq_internEach] at hrun
  cases hintern : Signature.intern names owner name descriptor with
  | error full =>
      rw [hintern] at hrun
      cases hrun
  | ok answer => exact ⟨answer.1, answer.2, rfl⟩

/-! ## Signatures in reserved names -/

/-- The three names of a signature are reserved for the three texts. -/
def IsReserved (sig : Signature) (texts : String × String × String) : Prop :=
  (sig.owner, texts.1) ∈ Name.reservedNames ∧ (sig.name, texts.2.1) ∈ Name.reservedNames ∧
    (sig.descriptor, texts.2.2) ∈ Name.reservedNames

instance (sig : Signature) (texts : String × String × String) :
    Decidable (sig.IsReserved texts) :=
  inferInstanceAs (Decidable (_ ∧ _ ∧ _))

/-- Reserved names stand for their texts in every table that grew from the initial one. -/
theorem IsReserved.named (hgrown : NameTable.initial.Extends names)
    (h : sig.IsReserved (owner, name, descriptor)) : sig.Named names owner name descriptor := by
  obtain ⟨howner, hname, hdescriptor⟩ := h
  have hinitial : sig.Named .initial owner name descriptor :=
    ⟨NameTable.named_initial howner, NameTable.named_initial hname,
      NameTable.named_initial hdescriptor⟩
  exact hinitial.mono hgrown

end Signature

namespace MethodTable

theorem entries_standard : standard.entries = standardEntries := rfl

/-- An entry of the standard table is reserved for the texts of a comparing method. -/
theorem texts_of_standard : ∀ entry ∈ standardEntries, ∃ texts ∈ comparingMethods,
    comparisonNamed? texts.2.1 = some entry.2 ∧ entry.1.IsReserved texts := by
  decide

/-- Every comparing method has such an entry. -/
theorem standard_of_texts : ∀ texts ∈ comparingMethods, ∃ entry ∈ standardEntries,
    comparisonNamed? texts.2.1 = some entry.2 ∧ entry.1.IsReserved texts := by
  decide

/-- In a table that grew from the initial one, the standard table knows a signature exactly if its
    texts are those of a comparing method. -/
theorem find?_standard_iff {names : NameTable} {sig : Signature} {owner name descriptor : String}
    (hgrown : NameTable.initial.Extends names) (hnamed : sig.Named names owner name descriptor)
    (op : RelOp) :
    standard.find? sig = some op ↔
      (owner, name, descriptor) ∈ comparingMethods ∧ comparisonNamed? name = some op := by
  rw [find?_eq_some_iff, entries_standard]
  constructor
  · intro hentry
    obtain ⟨⟨owner', name', descriptor'⟩, hmethod, hop, hreserved⟩ := texts_of_standard _ hentry
    have hsame := hnamed.texts_eq (hreserved.named hgrown)
    cases hsame
    exact ⟨hmethod, hop⟩
  · rintro ⟨hmethod, hop⟩
    obtain ⟨⟨sig', op'⟩, hentry, hop', hreserved⟩ := standard_of_texts _ hmethod
    have hsame : sig = sig' := hnamed.eq (hreserved.named hgrown)
    have hsame' : op = op' := Option.some.inj (hop.symm.trans hop')
    rw [hsame, hsame']
    exact hentry

end MethodTable

/-- Comparing methods are recognised by their texts.  After any history of interning, three texts
    have a signature if they fit into the table of names.  The standard table knows that signature
    exactly if the texts are those of one of the sixteen comparing methods, and the operator is `eq`
    for `equals`, `lt` for `before` and `gt` for `after`.  So the same three texts are recognised
    alike after any two histories. -/
theorem comparing_methods_by_text (history : List String) (answers : List Name) (names : NameTable)
    (hhistory : NameTable.initial.internEach history = .ok (answers, names))
    (owner name descriptor : String) :
    ((names.textSet ∪ {owner, name, descriptor}).card ≤ UInt32.size →
      ∃ sig names', Signature.intern names owner name descriptor = .ok (sig, names')) ∧
    ∀ sig names', Signature.intern names owner name descriptor = .ok (sig, names') →
      (∀ op, MethodTable.standard.find? sig = some op ↔
        (owner, name, descriptor) ∈ comparingMethods ∧ comparisonNamed? name = some op) ∧
      ∀ (history₂ : List String) (answers₂ : List Name) (names₂ names₂' : NameTable)
        (sig₂ : Signature), NameTable.initial.internEach history₂ = .ok (answers₂, names₂) →
        Signature.intern names₂ owner name descriptor = .ok (sig₂, names₂') →
        MethodTable.standard.find? sig₂ = MethodTable.standard.find? sig := by
  -- What the standard table knows is the same function of the texts after every history.
  have hknown : ∀ (history : List String) (answers : List Name) (names names' : NameTable)
      (sig : Signature), NameTable.initial.internEach history = .ok (answers, names) →
      Signature.intern names owner name descriptor = .ok (sig, names') →
      ∀ op, MethodTable.standard.find? sig = some op ↔
        (owner, name, descriptor) ∈ comparingMethods ∧ comparisonNamed? name = some op := by
    intro history answers names names' sig hhistory hintern
    have hgrown : NameTable.initial.Extends names' :=
      (NameTable.extends_of_internEach hhistory).trans
        (NameTable.extends_of_internEach (Signature.internEach_of_intern hintern))
    exact MethodTable.find?_standard_iff hgrown (Signature.named_of_intern hintern)
  refine ⟨Signature.exists_intern, fun sig names' hintern => ⟨?_, ?_⟩⟩
  · exact hknown history answers names names' sig hhistory hintern
  · intro history₂ answers₂ names₂ names₂' sig₂ hhistory₂ hintern₂
    refine Option.ext fun op => ?_
    rw [hknown history₂ answers₂ names₂ names₂' sig₂ hhistory₂ hintern₂,
      hknown history answers names names' sig hhistory hintern]

/-- After two texts were interned, one of them a reserved one, the test whether a date comes before
    another is recognised.  A timestamp is not compared with any object, so that test is not. -/
theorem comparing_methods_by_text_sample :
    ∃ answers names, NameTable.initial.internEach ["x", "before"] = .ok (answers, names) ∧
      (∃ sig names', Signature.intern names "java/util/Date" "before" "(Ljava/util/Date;)Z"
          = .ok (sig, names') ∧ MethodTable.standard.find? sig = some .lt) ∧
      ∃ sig names', Signature.intern names "java/sql/Timestamp" "equals" "(Ljava/lang/Object;)Z"
          = .ok (sig, names') ∧ MethodTable.standard.find? sig = none := by
  have hcard : (["x", "before"].toFinset \ Name.reserved.toFinset).card = 1 := by decide
  have hroom : (NameTable.initial.textSet ∪ ["x", "before"].toFinset).card ≤ UInt32.size := by
    rw [NameTable.card_reserved_union, hcard]
    decide
  obtain ⟨answers, names, hrun⟩ := NameTable.exists_internEach hroom
  have hsize : names.textSet.card = 15 := by
    rw [NameTable.textSet_of_internEach hrun, NameTable.card_reserved_union, hcard]
  -- Three more texts always fit.
  have hfits : ∀ texts : Finset String, texts.card ≤ 3 →
      (names.textSet ∪ texts).card ≤ UInt32.size := by
    intro texts hthree
    have hunion := Finset.card_union_le names.textSet texts
    have hlarge : 18 ≤ UInt32.size := by decide
    omega
  have hdate := comparing_methods_by_text _ answers names hrun
    "java/util/Date" "before" "(Ljava/util/Date;)Z"
  have htimestamp := comparing_methods_by_text _ answers names hrun
    "java/sql/Timestamp" "equals" "(Ljava/lang/Object;)Z"
  obtain ⟨sig, names', hintern⟩ := hdate.1 (hfits _ (by decide))
  obtain ⟨sig₂, names₂, hintern₂⟩ := htimestamp.1 (hfits _ (by decide))
  refine ⟨answers, names, hrun, ⟨sig, names', hintern, ?_⟩, sig₂, names₂, hintern₂, ?_⟩
  · exact ((hdate.2 sig names' hintern).1 .lt).mpr (by decide)
  · rw [Option.eq_none_iff_forall_ne_some]
    intro op hfound
    have hmethod := ((htimestamp.2 sig₂ names₂ hintern₂).1 op).mp hfound
    exact absurd hmethod.1 (by decide)

end ValueGraph
