import TeachingOs.Printf.Step

/-!
# TeachingOs.Printf.Compose

Complete format strings and when `generic_printf` composes over them.  A
`%` that ends a directive is printed without leaving the format, so the text
after it is still read as options and conversions.  `compositional_iff` says
exactly which pairs of formats do not notice.
-/

namespace TeachingOs.Printf

open Transducer

/-! ## Complete formats -/

/-- The character that ends a directive. -/
inductive Conv where
  | d | p | x | s | percent
deriving DecidableEq

/-- The conversion character. -/
def Conv.char : Conv → Char
  | .d => 'd'
  | .p => 'p'
  | .x => 'x'
  | .s => 's'
  | .percent => '%'

/-- What stands between the `%` and the conversion is made of flags, a field
width and a precision. -/
structure Directive where
  flags : List Char
  width : List Char
  precision : Option (List Char)
  conv : Conv
  flags_ok : ∀ c ∈ flags, c = '#' ∨ c = '-' ∨ c = '0'
  width_ok : ∀ c ∈ width, c.isDigit = true
  precision_ok : ∀ digits ∈ precision, ∀ c ∈ digits, c.isDigit = true

/-- Flags, field width and precision as written. -/
def Directive.options (d : Directive) : List Char :=
  d.flags ++ d.width ++ match d.precision with
    | none => []
    | some digits => '.' :: digits

/-- A piece of a complete format. -/
inductive Item where
  | lit (c : Char) (h : c ≠ '%')
  | directive (d : Directive)

/-- The text of a piece. -/
def Item.text : Item → List Char
  | .lit c _ => [c]
  | .directive d => '%' :: d.options ++ [d.conv.char]

/-- The format string of the pieces. -/
def render (f : List Item) : List Char := f.flatMap Item.text

/-- Exactly the arguments that the directives call for. -/
inductive Fits : List Item → List Arg → Prop where
  | nil : Fits [] []
  | lit {c h f args} : Fits f args → Fits (.lit c h :: f) args
  | percent {d f args} : d.conv = .percent → Fits f args → Fits (.directive d :: f) args
  | arg {d f arg args} : arg.accepts d.conv.char = true → Fits f args →
      Fits (.directive d :: f) (arg :: args)

/-- Both formats and their concatenation read exactly their arguments, and
the texts are concatenated. -/
def Compositional (garbage : Vector Char bufSize) (f g : List Item) (a b : List Arg) : Prop :=
  ∃ pf pg pfg, genericPrintf garbage (render f) a = some pf ∧
    genericPrintf garbage (render g) b = some pg ∧
    genericPrintf garbage (render (f ++ g)) (a ++ b) = some pfg ∧
    pf.va = [] ∧ pg.va = [] ∧ pfg.va = [] ∧ pfg.text = pf.text ++ pg.text

/-! ## Formats left open -/

/-- The runner is inside a format after the piece: a directive with the
conversion `%` does not end it. -/
def Item.opens (o : Bool) : Item → Bool
  | .lit c _ => o && !isConversion c
  | .directive d => d.conv = .percent

/-- The runner is inside a format after the pieces. -/
def opens (o : Bool) (f : List Item) : Bool := f.foldl Item.opens o

/-- A literal conversion character inside an open format. -/
def Item.stray (o : Bool) : Item → Bool
  | .lit c _ => o && isConversion c
  | .directive _ => false

/-- The number of literal characters that are taken for conversions. -/
def strays : Bool → List Item → Nat
  | _, [] => 0
  | o, i :: f => (i.stray o).toNat + strays (i.opens o) f

/-- The piece reads an argument. -/
def Item.reads : Item → Bool
  | .lit .. => false
  | .directive d => d.conv ≠ .percent

/-- The piece is a directive. -/
def Item.isDirective : Item → Bool
  | .lit .. => false
  | .directive _ => true

/-- Text that an open format prints as it stands. -/
def Item.inert : Item → Bool
  | .lit c _ => !isOption c && !isConversion c
  | .directive _ => false

/-- No literal is taken for a conversion, and a format that the first string
leaves open meets nothing but inert text. -/
structure Unaffected (f g : List Item) : Prop where
  first : strays false f = 0
  second : strays false g = 0
  boundary : opens false f = true → ∀ i ∈ g, i.inert = true

/-! ## Runs over pieces -/

variable {f g : List Item} {a b : List Arg} {r r' : PrintfRunner} {out : List Char}

theorem render_cons (i : Item) (f : List Item) : render (i :: f) = i.text ++ render f := by
  simp [render]

theorem render_append (f g : List Item) : render (f ++ g) = render f ++ render g := by
  simp [render]

theorem isOption_of_mem_options {d : Directive} {c : Char} (h : c ∈ d.options) :
    isOption c = true := by
  have hdigit : ∀ {c : Char}, c.isDigit = true → isOption c = true := fun h => by simp [isOption, h]
  rcases List.mem_append.mp h with h | h
  · rcases List.mem_append.mp h with h | h
    · rcases d.flags_ok c h with rfl | rfl | rfl <;> rfl
    · exact hdigit (d.width_ok c h)
  · split at h
    · cases h
    · next digits hdigits =>
        rcases List.mem_cons.mp h with rfl | h
        · rfl
        · exact hdigit (d.precision_ok digits hdigits c h)

/-- A directive reaches its conversion character inside a format, whether
or not a format was open before it. -/
theorem run_directive (d : Directive) (r : PrintfRunner) :
    ∃ r₁ before, r₁.inFmt = true ∧ r₁.va = r.va ∧
      ∀ {r' out}, run printfStep (Item.directive d).text r = some (r', out) ↔
        ∃ out', printfStep r₁ d.conv.char = some (r', out') ∧ out = before ++ out' := by
  have hpercent : ∃ r₀ before, printfStep r '%' = some (r₀, before) ∧ r₀.inFmt = true ∧
      r₀.va = r.va := by
    cases h : r.inFmt with
    | false => exact ⟨_, _, printfStep_percent h, rfl, rfl⟩
    | true => exact ⟨_, _, printfStep_other h rfl rfl, h, rfl⟩
  obtain ⟨r₀, before, hstep, hfmt₀, hva₀⟩ := hpercent
  have hrun := run_options hfmt₀ fun c hc => isOption_of_mem_options (d := d) hc
  obtain ⟨r₁, hr₁⟩ : ∃ r₁, r₁ = d.options.foldl setOption r₀ := ⟨_, rfl⟩
  rw [← hr₁] at hrun
  have hfmt₁ : r₁.inFmt = true := by rw [hr₁, foldl_setOption_inFmt, hfmt₀]
  have hva₁ : r₁.va = r₀.va := by rw [hr₁, foldl_setOption_va]
  refine ⟨r₁, before, hfmt₁, hva₁.trans hva₀, fun {r' out} => ?_⟩
  rw [Item.text, run_append_eq_some]
  constructor
  · rintro ⟨r₂, out₁, out₂, hbefore, hconv, rfl⟩
    obtain ⟨r₃, out₃, out₄, hstep', hrun', rfl⟩ := run_cons_eq_some.mp hbefore
    rw [hstep] at hstep'
    cases hstep'
    rw [hrun] at hrun'
    cases hrun'
    obtain ⟨r₄, out₅, out₆, hlast, hnil, rfl⟩ := run_cons_eq_some.mp hconv
    cases hnil
    exact ⟨out₅, hlast, by simp⟩
  · rintro ⟨out', hlast, rfl⟩
    exact ⟨r₁, before, out', run_cons_eq_some.mpr ⟨_, _, _, hstep, hrun, (List.append_nil _).symm⟩,
      run_cons_eq_some.mpr ⟨_, _, _, hlast, rfl, (List.append_nil _).symm⟩, rfl⟩

/-! ## What a run reads -/

/-- A literal reads an argument exactly where it is a stray conversion. -/
theorem literal_reads {c : Char} (hc : c ≠ '%') (h : printfStep r c = some (r', out)) :
    r'.va.length + ((Item.lit c hc).stray r.inFmt).toNat = r.va.length ∧
      r'.inFmt = (Item.lit c hc).opens r.inFmt := by
  cases hfmt : r.inFmt with
  | false =>
      rw [printfStep_literal hfmt hc] at h
      cases h
      exact ⟨rfl, hfmt⟩
  | true =>
      by_cases ho : isOption c = true
      · have hconv := isConversion_eq_false ho
        rw [printfStep_option hfmt ho] at h
        cases h
        simp [Item.stray, Item.opens, hconv, hfmt]
      · by_cases hconv : isConversion c = true
        · rw [printfStep_conversion hfmt hconv] at h
          obtain ⟨arg, va, hva, ha⟩ := accepts_of_convert hconv h
          obtain ⟨r₁, out₁, h₁, hfmt₁, hva₁, -⟩ := convert_ok ha hva
          rw [h] at h₁
          cases h₁
          simp [Item.stray, Item.opens, hconv, hva, hva₁, hfmt₁]
        · have hother : isConversion c = false := by simpa using hconv
          rw [printfStep_other hfmt (by simpa using ho) hother] at h
          cases h
          simp [Item.stray, Item.opens, hother, hfmt]

/-- A conversion reads an argument and ends the format, except for `%`. -/
theorem conv_reads (conv : Conv) (hfmt : r.inFmt = true)
    (h : printfStep r conv.char = some (r', out)) :
    r'.va.length + (decide (conv ≠ .percent)).toNat = r.va.length ∧
      r'.inFmt = decide (conv = .percent) := by
  by_cases hconv : conv = .percent
  · subst hconv
    rw [printfStep_other hfmt rfl rfl] at h
    cases h
    simp [hfmt]
  · have hchar : isConversion conv.char = true := by cases conv <;> first | rfl | contradiction
    rw [printfStep_conversion hfmt hchar] at h
    obtain ⟨arg, va, hva, ha⟩ := accepts_of_convert hchar h
    obtain ⟨r₁, out₁, h₁, hfmt₁, hva₁, -⟩ := convert_ok ha hva
    rw [h] at h₁
    cases h₁
    simp [hconv, hva, hva₁, hfmt₁]

/-- A run reads one argument for each directive but `%` and for each stray
conversion. -/
theorem run_reads (h : run printfStep (render f) r = some (r', out)) :
    r'.va.length + f.countP Item.reads + strays r.inFmt f = r.va.length ∧
      r'.inFmt = opens r.inFmt f := by
  induction f generalizing r out with
  | nil =>
      cases h
      exact ⟨rfl, rfl⟩
  | cons i f ih =>
      rw [render_cons, run_append_eq_some] at h
      obtain ⟨r₁, out₁, out₂, hi, hf, rfl⟩ := h
      obtain ⟨hlen, hopen⟩ := ih hf
      have hpiece : r₁.va.length + i.reads.toNat + (i.stray r.inFmt).toNat = r.va.length ∧
          r₁.inFmt = i.opens r.inFmt := by
        cases i with
        | lit c hc =>
            obtain ⟨r₂, out₃, out₄, hstep, hnil, -⟩ := run_cons_eq_some.mp hi
            cases hnil
            exact literal_reads hc hstep
        | directive d =>
            obtain ⟨r₂, before, hfmt, hva, hrun⟩ := run_directive d r
            obtain ⟨out', hstep, -⟩ := hrun.mp hi
            have hreads := conv_reads d.conv hfmt hstep
            rw [hva] at hreads
            exact hreads
      obtain ⟨hread, hmode⟩ := hpiece
      rw [hmode] at hlen hopen
      refine ⟨?_, hopen⟩
      rw [List.countP_cons, strays]
      cases hr : i.reads <;> simp [hr] at hread ⊢ <;> omega

theorem Fits.length (h : Fits f a) : a.length = f.countP Item.reads := by
  induction h with
  | nil => rfl
  | lit _ ih => simpa [Item.reads] using ih
  | percent hconv _ ih => simpa [Item.reads, hconv] using ih
  | @arg d f arg args ha _ ih =>
      have hconv : d.conv ≠ .percent := by
        intro hconv
        rw [hconv] at ha
        cases arg <;> cases ha
      simp [Item.reads, hconv, ih]

/-- Without stray conversions a format runs on its own arguments. -/
theorem run_ok (h : Fits f a) (hva : r.va = a) (hs : strays r.inFmt f = 0) :
    ∃ r' out, run printfStep (render f) r = some (r', out) := by
  induction h generalizing r with
  | nil => exact ⟨r, [], rfl⟩
  | @lit c hc f args _ ih =>
      rw [strays] at hs
      have hstep : ∃ r₁ out₁, printfStep r c = some (r₁, out₁) ∧ r₁.va = r.va := by
        cases hfmt : r.inFmt with
        | false => exact ⟨_, _, printfStep_literal hfmt hc, rfl⟩
        | true =>
            by_cases ho : isOption c = true
            · exact ⟨_, _, printfStep_option hfmt ho, setOption_va⟩
            · have hconv : isConversion c = false := by
                simpa [Item.stray, hfmt] using (Nat.add_eq_zero_iff.mp hs).1
              exact ⟨_, _, printfStep_other hfmt (by simpa using ho) hconv, rfl⟩
      obtain ⟨r₁, out₁, hstep, hva₁⟩ := hstep
      obtain ⟨-, hmode⟩ := literal_reads hc hstep
      obtain ⟨r', out, hrun⟩ :=
        ih (hva₁.trans hva) (by rw [hmode]; exact (Nat.add_eq_zero_iff.mp hs).2)
      exact ⟨r', _, run_append_eq_some.mpr ⟨r₁, _, _, run_cons_eq_some.mpr
        ⟨_, _, _, hstep, rfl, rfl⟩, hrun, rfl⟩⟩
  | @percent d f args hconv _ ih =>
      obtain ⟨r₁, before, hfmt, hva₁, hd⟩ := run_directive d r
      have hstep : printfStep r₁ d.conv.char = some (r₁, ['%']) := by
        rw [hconv]
        exact printfStep_other hfmt rfl rfl
      have hmode : r₁.inFmt = (Item.directive d).opens r.inFmt := by simp [Item.opens, hconv, hfmt]
      obtain ⟨r', out, hrun⟩ := ih (hva₁.trans hva) (by
        rw [hmode]
        exact (Nat.add_eq_zero_iff.mp hs).2)
      exact ⟨r', _, run_append_eq_some.mpr ⟨r₁, _, _, hd.mpr ⟨_, hstep, rfl⟩, hrun, rfl⟩⟩
  | @arg d f arg args ha _ ih =>
      obtain ⟨r₁, before, hfmt, hva₁, hd⟩ := run_directive d r
      have hchar : isConversion d.conv.char = true := by
        cases hconv : d.conv <;> rw [hconv] at ha <;> cases arg <;> first | rfl | cases ha
      obtain ⟨r₂, out₂, hconvert, hfmt₂, hva₂, -⟩ := convert_ok ha (hva₁.trans hva)
      have hstep := (printfStep_conversion hfmt hchar).trans hconvert
      have hmode : r₂.inFmt = (Item.directive d).opens r.inFmt := (conv_reads d.conv hfmt hstep).2
      obtain ⟨r', out, hrun⟩ := ih hva₂ (by
        rw [hmode]
        exact (Nat.add_eq_zero_iff.mp hs).2)
      exact ⟨r', _, run_append_eq_some.mpr ⟨r₂, _, _, hd.mpr ⟨_, hstep, rfl⟩, hrun, rfl⟩⟩

/-! ## Text after an open format -/

/-- Outside a format, text is printed as it stands. -/
theorem run_literals_closed (hlit : ∀ i ∈ g, i.isDirective = false) (h : r.inFmt = false) :
    run printfStep (render g) r = some (r, render g) := by
  induction g with
  | nil => rfl
  | cons i g ih =>
      have hrun := ih fun i hi => hlit i (List.mem_cons_of_mem _ hi)
      cases i with
      | directive d => cases hlit _ List.mem_cons_self
      | lit c hc => exact run_cons_eq_some.mpr ⟨_, _, _, printfStep_literal h hc, hrun, rfl⟩

/-- Inside a format, options are swallowed. -/
theorem run_literals_open (hlit : ∀ i ∈ g, i.isDirective = false) (hs : strays true g = 0)
    (h : r.inFmt = true) : ∃ r', r'.va = r.va ∧
      run printfStep (render g) r = some (r', (render g).filter fun c => !isOption c) := by
  induction g generalizing r with
  | nil => exact ⟨r, rfl, rfl⟩
  | cons i g ih =>
      have hlit' : ∀ i ∈ g, i.isDirective = false := fun i hi => hlit i (List.mem_cons_of_mem _ hi)
      cases i with
      | directive d => cases hlit _ List.mem_cons_self
      | lit c hc =>
          obtain ⟨hstray, hs⟩ := Nat.add_eq_zero_iff.mp hs
          have hconv : isConversion c = false := by simpa [Item.stray] using hstray
          have hs : strays true g = 0 := by simpa [Item.opens, hconv] using hs
          rw [render_cons, Item.text, List.filter_append]
          cases ho : isOption c with
          | true =>
              obtain ⟨r', hva, hrun⟩ := ih hlit' hs (r := setOption r c) (by simp [h])
              refine ⟨r', by simp [hva], run_cons_eq_some.mpr
                ⟨_, _, _, printfStep_option h ho, hrun, ?_⟩⟩
              simp [ho]
          | false =>
              obtain ⟨r', hva, hrun⟩ := ih hlit' hs h
              refine ⟨r', hva, run_cons_eq_some.mpr
                ⟨_, _, _, printfStep_other h ho hconv, hrun, ?_⟩⟩
              simp [ho]

/-- Inert text has no directive, stray conversion or option. -/
theorem inert_iff : (∀ i ∈ g, i.inert = true) ↔ (∀ i ∈ g, i.isDirective = false) ∧
    strays true g = 0 ∧ ∀ c ∈ render g, isOption c = false := by
  induction g with
  | nil => simp [strays, render]
  | cons i g ih =>
      cases i with
      | directive d => simp [Item.inert, Item.isDirective]
      | lit c hc =>
          simp only [List.forall_mem_cons, ih, render_cons, Item.text, List.singleton_append,
            strays]
          cases ho : isOption c <;> cases hconv : isConversion c <;>
            simp [Item.inert, Item.isDirective, Item.stray, Item.opens, ho, hconv]

/-- A directive in an open format prints one percent sign more. -/
theorem count_open {q q' : PrintfRunner} {out' : List Char}
    (hd : ∃ i ∈ g, i.isDirective = true) (hs : strays true g = 0) (hp : r.inFmt = false)
    (hq : q.inFmt = true) (hva : r.va = q.va)
    (hrun : run printfStep (render g) r = some (r', out))
    (hrun' : run printfStep (render g) q = some (q', out')) :
    out'.count '%' = out.count '%' + 1 := by
  induction g generalizing r q out out' with
  | nil => simp at hd
  | cons i g ih =>
      rw [render_cons] at hrun hrun'
      cases i with
      | directive d =>
          obtain ⟨r₁, out₁, out₂, hstep, hrest, rfl⟩ := run_cons_eq_some.mp hrun
          obtain ⟨q₁, out₃, out₄, hstep', hrest', rfl⟩ := run_cons_eq_some.mp hrun'
          rw [printfStep_percent hp] at hstep
          rw [printfStep_other hq rfl rfl] at hstep'
          cases hstep
          cases hstep'
          obtain ⟨q₂, out₅, hsim, -, hcount⟩ :=
            run_sameMode (r := printfBeginFmt r) ⟨hq.symm, hva⟩ hrest
          rw [hrest'] at hsim
          cases hsim
          simp [hcount]
      | lit c hc =>
          obtain ⟨hstray, hs⟩ := Nat.add_eq_zero_iff.mp hs
          have hconv : isConversion c = false := by simpa [Item.stray] using hstray
          have hs : strays true g = 0 := by simpa [Item.opens, hconv] using hs
          have hd : ∃ i ∈ g, i.isDirective = true := by simpa [Item.isDirective] using hd
          obtain ⟨r₁, out₁, out₂, hstep, hrest, rfl⟩ := run_cons_eq_some.mp hrun
          obtain ⟨q₁, out₃, out₄, hstep', hrest', rfl⟩ := run_cons_eq_some.mp hrun'
          rw [printfStep_literal hp hc] at hstep
          cases hstep
          cases ho : isOption c with
          | true =>
              rw [printfStep_option hq ho] at hstep'
              cases hstep'
              have hcount :=
                ih hd hs hp (q := setOption q c) (by simp [hq]) (by simp [hva]) hrest hrest'
              simp [hcount, hc]
          | false =>
              rw [printfStep_other hq ho hconv] at hstep'
              cases hstep'
              have hcount := ih hd hs hp hq hva hrest hrest'
              simp [hcount, hc]

/-- Text that prints the same in an open format as on its own is inert. -/
theorem inert_of_run {q q' : PrintfRunner} (hp : r.inFmt = false) (hq : q.inFmt = true)
    (hva : r.va = q.va) (hs : strays true g = 0)
    (hrun : run printfStep (render g) r = some (r', out))
    (hrun' : run printfStep (render g) q = some (q', out)) : ∀ i ∈ g, i.inert = true := by
  have hlit : ∀ i ∈ g, i.isDirective = false := by
    intro i hi
    refine Bool.eq_false_iff.mpr fun hd => ?_
    have hcount := count_open ⟨i, hi, hd⟩ hs hp hq hva hrun hrun'
    omega
  obtain ⟨q₂, -, hfilter⟩ := run_literals_open hlit hs hq
  rw [hrun'] at hfilter
  cases hfilter
  have hclosed := run_literals_closed hlit hp
  rw [hrun] at hclosed
  have hsame := (Prod.mk.inj (Option.some.inj hclosed)).2
  refine inert_iff.mpr ⟨hlit, hs, fun c hc => ?_⟩
  simpa using List.filter_eq_self.mp hsame c hc

/-- Inert text prints in an open format what it prints on its own. -/
theorem run_of_inert {q : PrintfRunner} (hinert : ∀ i ∈ g, i.inert = true) (hp : r.inFmt = false)
    (hq : q.inFmt = true) (hva : r.va = q.va)
    (hrun : run printfStep (render g) r = some (r', out)) :
    ∃ q', run printfStep (render g) q = some (q', out) ∧ q'.va = r'.va := by
  obtain ⟨hlit, hs, hopt⟩ := inert_iff.mp hinert
  obtain ⟨q', hva', hrun'⟩ := run_literals_open hlit hs hq
  have hclosed := run_literals_closed hlit hp
  rw [hrun] at hclosed
  cases hclosed
  refine ⟨q', ?_, hva'.trans hva.symm⟩
  rw [hrun', List.filter_eq_self.mpr fun c hc => by simp [hopt c hc]]

/-- A format on its own reads all of its arguments. -/
theorem va_of_run (hf : Fits f a) (hs : strays false f = 0)
    (hrun : run printfStep (render f) (printfRunner a) = some (r', out)) : r'.va = [] := by
  have hlen : r'.va.length + f.countP Item.reads + strays false f = a.length := (run_reads hrun).1
  have hargs : a.length = f.countP Item.reads := hf.length
  exact List.length_eq_zero_iff.mp (by omega)

/-! ## When formats compose -/

/-- **Formats compose** exactly when no literal of either is taken for a
conversion, and a format that the first leaves open by a final `%` meets no
directive, option or conversion character in the second. -/
theorem compositional_iff {garbage : Vector Char bufSize} (hf : Fits f a) (hg : Fits g b) :
    Compositional garbage f g a b ↔ Unaffected f g := by
  constructor
  · rintro ⟨pf, pg, pfg, hpf, hpg, hpfg, hva, hvb, hvab, htext⟩
    obtain ⟨prf, hrunf, hvaf⟩ := genericPrintf_iff.mp ⟨pf, hpf, rfl, rfl⟩
    obtain ⟨prg, hrung, hvag⟩ := genericPrintf_iff.mp ⟨pg, hpg, rfl, rfl⟩
    obtain ⟨prfg, hrunfg, hvafg⟩ := genericPrintf_iff.mp ⟨pfg, hpfg, rfl, rfl⟩
    rw [render_append, run_append_eq_some] at hrunfg
    obtain ⟨r₁, out₁, out₂, hrun₁, hrun₂, hout⟩ := hrunfg
    rw [show printfRunner (a ++ b) = (printfRunner a).addArgs b from rfl,
      run_addArgs hrunf b] at hrun₁
    cases hrun₁
    obtain ⟨hlenf, hopen⟩ := run_reads hrunf
    obtain ⟨hleng, -⟩ := run_reads hrung
    obtain ⟨hlenfg, -⟩ := run_reads hrun₂
    have hopen' : (prf.addArgs b).inFmt = opens false f := hopen
    have hargsf : (printfRunner a).va.length = f.countP Item.reads := hf.length
    have hargsg : (printfRunner b).va.length = g.countP Item.reads := hg.length
    have hargsfg : (prf.addArgs b).va.length = g.countP Item.reads := by
      rw [← hargsg, PrintfRunner.addArgs, hvaf, hva]
      rfl
    refine ⟨?_, ?_, fun ho => ?_⟩
    · have hs : strays (printfRunner a).inFmt f = 0 := by omega
      exact hs
    · have hs : strays (printfRunner b).inFmt g = 0 := by omega
      exact hs
    · have hs : strays true g = 0 := by
        rw [hopen', ho] at hlenfg
        omega
      have hsame : out₂ = pg.text := List.append_cancel_left (hout.symm.trans htext)
      have hva₁ : b = (prf.addArgs b).va := by rw [PrintfRunner.addArgs, hvaf, hva]; rfl
      rw [hsame] at hrun₂
      exact inert_of_run (r := printfRunner b) rfl (hopen'.trans ho) hva₁ hs hrung hrun₂
  · intro h
    obtain ⟨prf, outf, hrunf⟩ := run_ok hf (r := printfRunner a) rfl h.first
    obtain ⟨prg, outg, hrung⟩ := run_ok hg (r := printfRunner b) rfl h.second
    have hopen : prf.inFmt = opens false f := (run_reads hrunf).2
    have hvaf : prf.va = [] := va_of_run hf h.first hrunf
    have hvag : prg.va = [] := va_of_run hg h.second hrung
    have hva₁ : (prf.addArgs b).va = b := by rw [PrintfRunner.addArgs, hvaf]; rfl
    have hrun₁ := run_addArgs hrunf b
    have hrun₂ : ∃ r₂, run printfStep (render g) (prf.addArgs b) = some (r₂, outg) ∧
        r₂.va = [] := by
      cases ho : opens false f with
      | false =>
          have hsame : SameText (printfRunner b) (prf.addArgs b) :=
            Or.inr ⟨rfl, hopen.trans ho, hva₁.symm⟩
          obtain ⟨r₂, hrun₂, hR⟩ := run_sameText hsame hrung
          refine ⟨r₂, hrun₂, ?_⟩
          rcases hR with rfl | ⟨-, -, hva₂⟩
          · exact hvag
          · exact hva₂.symm.trans hvag
      | true =>
          obtain ⟨r₂, hrun₂, hva₂⟩ := run_of_inert (r := printfRunner b) (q := prf.addArgs b)
            (h.boundary ho) rfl (hopen.trans ho) hva₁.symm hrung
          exact ⟨r₂, hrun₂, hva₂.trans hvag⟩
    obtain ⟨r₂, hrun₂, hva₂⟩ := hrun₂
    have hrun : run printfStep (render (f ++ g)) (printfRunner (a ++ b)) =
        some (r₂, outf ++ outg) := by
      rw [render_append]
      exact run_append_eq_some.mpr ⟨_, _, _, hrun₁, hrun₂, rfl⟩
    obtain ⟨pf, hpf, hpva, hptext⟩ := genericPrintf_iff.mpr ⟨prf, hrunf, hvaf⟩
    obtain ⟨pg, hpg, hqva, hqtext⟩ := genericPrintf_iff.mpr ⟨prg, hrung, hvag⟩
    obtain ⟨pfg, hpfg, hrva, hrtext⟩ := genericPrintf_iff.mpr ⟨r₂, hrun, hva₂⟩
    exact ⟨pf, pg, pfg, hpf, hpg, hpfg, hpva, hqva, hrva, by rw [hrtext, hptext, hqtext]⟩

/-- A directive without options. -/
def Directive.plain (conv : Conv) : Directive := ⟨[], [], none, conv, nofun, nofun, nofun⟩

/-- `%d` and then the text `d`. -/
theorem compositional_iff_word :
    Compositional (.replicate bufSize 'z') [.directive (.plain .d)] [.lit 'd' (by decide)]
      [.word 7] [] :=
  (compositional_iff (.arg rfl .nil) (.lit .nil)).mpr ⟨rfl, rfl, nofun⟩

/-- `%%` prints `%` and `%d` prints `7`, but `%%%d` prints `%%7`. -/
theorem not_compositional_percent :
    Fits [.directive (.plain .percent)] [] ∧ Fits [.directive (.plain .d)] [.word 7] ∧
      ¬ Compositional (.replicate bufSize 'z') [.directive (.plain .percent)]
        [.directive (.plain .d)] [] [.word 7] := by
  refine ⟨.percent rfl .nil, .arg rfl .nil, ?_⟩
  rintro ⟨pf, pg, pfg, hf, hg, hfg, -, -, -, htext⟩
  obtain ⟨rf, hf, -⟩ := genericPrintf_iff.mp ⟨pf, hf, rfl, rfl⟩
  obtain ⟨rg, hg, -⟩ := genericPrintf_iff.mp ⟨pg, hg, rfl, rfl⟩
  obtain ⟨rfg, hfg, -⟩ := genericPrintf_iff.mp ⟨pfg, hfg, rfl, rfl⟩
  rw [htext] at hfg
  have htextf : ['%'] = pf.text := (Prod.mk.inj (Option.some.inj hf)).2
  have htextg : ['7'] = pg.text := (Prod.mk.inj (Option.some.inj hg)).2
  have htextfg : ['%', '%', '7'] = pf.text ++ pg.text := (Prod.mk.inj (Option.some.inj hfg)).2
  rw [← htextf, ← htextg] at htextfg
  cases htextfg

end TeachingOs.Printf
