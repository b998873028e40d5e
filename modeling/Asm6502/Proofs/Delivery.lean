/-
What a run of the demo leaves on the disk.

An action that is carried out makes directories, saves one file or leaves the disk alone (`Action.Effect`). So after a
list of actions that all went well

- a file holds what was saved under its path, if no later action saved a file at the same place
  (`content?_performAll`);
- a file that no action saved is as it was (`find?_performAll`).

`delivered_invoke` says what that means for the demo: the listing is where it was asked for, the image too unless the
listing was saved over it, and no other file has changed. `image_overwritten` is the exception: the demo does not
compare the two paths, saves the listing over the image and still reports both as saved.
-/
import Asm6502.Demo.Session
import Asm6502.Proofs.Listing
import Asm6502.Proofs.Places

namespace Asm6502.Demo

open Asm6502.Console

/-! ## The frame program -/

def frameItems : List Item :=
  itemsOf frameSteps

/-- the number of a visible line is a byte -/
theorem ldaImmediate_succeeds {line : Nat} (hl : line < 192) :
    Step.Succeeds (.call (.ldaImmediate (Int32.ofNat line))) := by
  have hvalue : (Int32.ofNat line).toInt = line := Int32.toInt_ofNat_of_lt (by omega)
  have hform : Form.ofOperand "LDA" .immediate (some (.literal (Int32.ofNat line))) =
      .ok (.immediate (UInt8.ofInt line)) := by
    rw [Form.ofOperand, Form.ofImmediate, hvalue, Check.inRange, if_pos (by omega)]
    rfl
  have hopcode : InstructionSet.mos6502.lookup "LDA" .immediate = some 0xA9 := rfl
  refine ⟨[.instruction "LDA" 0xA9 (.immediate (UInt8.ofInt line))], ?_⟩
  rw [Call.ldaImmediate, Call.items, hopcode]
  simp only
  rw [hform]
  rfl

theorem frameSteps_succeed : ∀ step ∈ frameSteps, step.Succeeds := by
  intro step hs
  simp only [frameSteps, colouredLine, List.mem_append, List.mem_flatMap, List.mem_range, List.mem_cons,
    List.not_mem_nil, or_false] at hs
  rcases hs with ((rfl | rfl | rfl | rfl) | ⟨line, hl, rfl | rfl | rfl⟩) | rfl | rfl
  · exact trivial
  · exact ⟨_, rfl⟩
  · exact trivial
  · exact trivial
  · exact trivial
  · exact ldaImmediate_succeeds hl
  · exact ⟨_, rfl⟩
  · exact trivial
  · exact ⟨_, rfl⟩

theorem frameProgram_eq : frameProgram = .ok (Program.ofItems frameItems) := by
  have hrun := Step.runAll_eq frameSteps .new rfl frameSteps_succeed
  unfold frameProgram frameItems Program.ofItems
  -- nothing below depends on which steps these are
  generalize frameSteps = steps at hrun ⊢
  rw [hrun]

theorem compileFrame_eq : compileFrame = (Program.ofItems frameItems).compile {} := by
  rw [compileFrame, frameProgram_eq, lift_ok, pure_bind]

theorem size_image_of_compileFrame {assembly : Assembly} {trace : List Event}
    (h : compileFrame [] = .ok assembly trace) : assembly.image.size = 4096 := by
  rw [compileFrame_eq] at h
  obtain ⟨code, ho, hf, _, _, hcode, hbytes, hpack⟩ := compile_inv h
  rw [hbytes] at hpack
  obtain ⟨image, himage, hsize, _⟩ := Cartridge.pack_eq_ok ho hf fun address hm => mem_store_code hf hcode hm
  cases himage.symm.trans hpack
  exact hsize

theorem compileFrame_succeeds : ∃ assembly trace, compileFrame [] = .ok assembly trace := by
  have hf : Cartridge.ensureFits {} (totalSize frameItems) = .ok () :=
    Cartridge.ensureFits_eq_ok_iff.2 (by decide +kernel)
  have hd : (labelNames frameItems).Nodup := by decide +kernel
  have hok : (encodeFrom ⟨labelsFrom 0xF000 frameItems⟩ 0xF000 frameItems).isOk := by decide +kernel
  rw [compileFrame_eq]
  cases hcode : encodeFrom ⟨labelsFrom 0xF000 frameItems⟩ 0xF000 frameItems with
  | error fault =>
    rw [hcode] at hok
    cases hok
  | ok code =>
    obtain ⟨image, listing, _, h⟩ := compile_ofItems rfl hf hd hcode []
    exact ⟨_, _, h⟩

section First

variable {items : List Item} {mnemonic : String} {opcode : UInt8} {cartridge : Cartridge} {assembly : Assembly}
  {trace after : List Event}

theorem head?_image
    (h : (Program.ofItems (.instruction mnemonic opcode .implied :: items)).compile cartridge trace =
      .ok assembly after) : assembly.image.toList.head? = some opcode := by
  obtain ⟨code, hcode, _, htake⟩ := image_of_compile h
  obtain ⟨own, hown, hcode⟩ := bind_eq_ok_iff.1 hcode
  obtain ⟨more, _, hcode⟩ := bind_eq_ok_iff.1 hcode
  cases hown
  cases hcode
  have hhead := congrArg List.head? htake
  rw [List.head?_take, if_neg (by simp [totalSize, Item.size, Form.size])] at hhead
  exact hhead

theorem listing_eq_append
    (h : (Program.ofItems (.instruction mnemonic opcode .implied :: items)).compile cartridge trace =
      .ok assembly after) : ∃ more, assembly.listing = Digits.hex 2 assembly.origin ++ more := by
  obtain ⟨_, ho, hf, _⟩ := compile_inv h
  have hrender := render_of_compile h
  rw [render_eq_join assembly.bytes (fits_wordLimit ho hf)] at hrender
  rw [← Except.ok.inj hrender, blocksFrom, String.join_cons]
  simp only [Item.block, Listing.instructionLine, Listing.line, Digits.column, Listing.address, String.append_assoc]
  exact ⟨_, rfl⟩

end First

/-- the listing begins with a digit of the origin, the image with an opcode -/
theorem listing_ne_image {assembly : Assembly} {trace : List Event} (h : compileFrame [] = .ok assembly trace) :
    assembly.listing.toUTF8 ≠ ⟨assembly.image⟩ := by
  obtain ⟨rest, hitems⟩ : ∃ rest, frameItems = .instruction "SEI" 0x78 .implied :: rest := ⟨_, rfl⟩
  rw [compileFrame_eq, hitems] at h
  obtain ⟨_, ho, _⟩ := compile_inv h
  have horigin : assembly.origin = 0xF000 := (Except.ok.inj ho).symm
  have hhex : Digits.hex 2 0xF000 = "F000" := rfl
  have hdigits : "F000".toUTF8.data.toList = [0x46, 0x30, 0x30, 0x30] := by decide +kernel
  obtain ⟨more, hlisting⟩ := listing_eq_append h
  have hutf8 : assembly.listing.toUTF8 = "F000".toUTF8 ++ more.toUTF8 := by
    rw [hlisting, horigin, hhex]
    exact String.toByteArray_append ..
  intro heq
  have hhead : assembly.listing.toUTF8.data.toList.head? = some 0x78 := by
    rw [heq]
    exact head?_image h
  rw [hutf8, ByteArray.data_append, Array.toList_append, hdigits] at hhead
  simp at hhead

/-! ## One action -/

/-- what an action did to the disk, if it was carried out -/
def Action.Effect : Action → Disk → Disk → Prop
  | .makeRoomFor _, before, after => Disk.Grown before after
  | .save path content, before, after => ∃ place, Disk.Saved (Path.ofString path) content place before after
  | _, before, after => after = before

theorem effect_of_perform {action : Action} {before after : Session} (h : perform action before = .ok () after) :
    action.Effect before.disk after.disk := by
  cases action with
  | note | print =>
    cases h
    rfl
  | makeRoomFor path =>
    simp only [perform] at h
    split at h
    · cases h
      exact .refl _
    · split at h
      next hmade =>
        cases h
        exact Disk.grown_makeDirectories hmade
      next => cases h
  | save path content =>
    simp only [perform] at h
    split at h
    next hsaved =>
      cases h
      exact Disk.saved_of_save hsaved
    next => cases h
  | fail fault => cases h

theorem Action.Effect.kept {action : Action} {before after : Disk} (h : action.Effect before after) :
    Disk.Kept before after := by
  cases action with
  | makeRoomFor path => exact Disk.Grown.kept h
  | save path content =>
    obtain ⟨place, hsaved⟩ := h
    exact hsaved.kept
  | _ =>
    cases h
    exact .refl _

/-! ## Many actions -/

theorem performAll_cons_iff {action : Action} {actions : List Action} {before after : Session} :
    performAll (action :: actions) before = .ok () after ↔
      ∃ between, perform action before = .ok () between ∧ performAll actions between = .ok () after := by
  rw [performAll, run_bind]
  cases perform action before <;> simp

theorem performAll_append_iff {actions more : List Action} {before after : Session} :
    performAll (actions ++ more) before = .ok () after ↔
      ∃ between, performAll actions before = .ok () between ∧ performAll more between = .ok () after := by
  induction actions generalizing before with
  | nil => exact ⟨fun h => ⟨before, rfl, h⟩, fun ⟨_, hbefore, h⟩ => (by cases hbefore; exact h)⟩
  | cons action actions ih =>
    simp only [List.cons_append, performAll_cons_iff, ih]
    constructor
    · rintro ⟨first, hfirst, between, hbetween, hmore⟩
      exact ⟨between, ⟨first, hfirst, hbetween⟩, hmore⟩
    · rintro ⟨between, ⟨first, hfirst, hbetween⟩, hmore⟩
      exact ⟨first, hfirst, between, hbetween, hmore⟩

theorem kept_performAll {actions : List Action} {before after : Session}
    (h : performAll actions before = .ok () after) : Disk.Kept before.disk after.disk := by
  induction actions generalizing before with
  | nil =>
    cases h
    exact .refl _
  | cons action actions ih =>
    obtain ⟨between, hfirst, hrest⟩ := performAll_cons_iff.1 h
    exact (effect_of_perform hfirst).kept.trans (ih hrest)

/-- **Files that no action saved are as they were.** -/
theorem find?_performAll {actions : List Action} {before after : Session}
    (h : performAll actions before = .ok () after) {place : List String}
    (hp : ∀ path content, .save path content ∈ actions → after.disk.filePlace (Path.ofString path) ≠ .ok place)
    (content : ByteArray) :
    after.disk.find? place = some (.file content) ↔ before.disk.find? place = some (.file content) := by
  induction actions generalizing before with
  | nil =>
    cases h
    rfl
  | cons action actions ih =>
    obtain ⟨between, hfirst, hrest⟩ := performAll_cons_iff.1 h
    rw [ih hrest fun path content hm => hp path content (List.mem_cons_of_mem _ hm)]
    have heffect := effect_of_perform hfirst
    cases action with
    | makeRoomFor path => exact Disk.Grown.file_iff heffect place content
    | save path saved =>
      obtain ⟨filled, hsaved⟩ := heffect
      -- the path still leads to the place that was filled, so that is another one
      have hnow : after.disk.filePlace (Path.ofString path) = .ok filled :=
        (kept_performAll hrest).filePlace_file hsaved.filePlace_after hsaved.find?_place
      rw [hsaved.find?_other]
      rintro rfl
      exact hp path saved List.mem_cons_self hnow
    | _ => rw [heffect]

/-- **The last file saved at a place is the one that stays.** -/
theorem content?_performAll {actions rest : List Action} {path : String} {content : ByteArray} {before after : Session}
    (h : performAll (actions ++ .save path content :: rest) before = .ok () after)
    (hlast : ∀ other content', .save other content' ∈ rest →
      ¬ after.disk.Meet (Path.ofString path) (Path.ofString other)) :
    after.disk.content? (Path.ofString path) = some content := by
  obtain ⟨_, _, h⟩ := performAll_append_iff.1 h
  obtain ⟨between, hsave, hrest⟩ := performAll_cons_iff.1 h
  obtain ⟨place, hsaved⟩ := effect_of_perform hsave
  have hnow : after.disk.filePlace (Path.ofString path) = .ok place :=
    (kept_performAll hrest).filePlace_file hsaved.filePlace_after hsaved.find?_place
  refine Disk.content?_eq hnow ((find?_performAll hrest ?_ content).2 hsaved.find?_place)
  intro other content' hm hother
  exact hlast other content' hm ⟨place, hnow, hother⟩

/-! ## The demo -/

/-- what the demo was asked for is on the disk -/
structure Delivered (options : Options) (assembly : Assembly) (before after : Disk) : Prop where
  image_eq : (∀ path, options.listing = some path →
      ¬ after.Meet (Path.ofString options.output) (Path.ofString path)) →
    after.content? (Path.ofString options.output) = some ⟨assembly.image⟩
  listing_eq : ∀ path, options.listing = some path →
    after.content? (Path.ofString path) = some assembly.listing.toUTF8
  others : ∀ place content, after.filePlace (Path.ofString options.output) ≠ .ok place →
    (∀ path, options.listing = some path → after.filePlace (Path.ofString path) ≠ .ok place) →
    (after.find? place = some (.file content) ↔ before.find? place = some (.file content))

section Plan

variable {options : Options} {assembly : Assembly}

/-- the image is the first file that is saved, and behind it only the listing is -/
theorem deliver_at_image (options : Options) (assembly : Assembly) :
    ∃ start rest, deliver options assembly = start ++ .save options.output ⟨assembly.image⟩ :: rest ∧
      (∀ path content, .save path content ∉ start) ∧
      ∀ path content, .save path content ∈ rest → options.listing = some path := by
  refine ⟨(if options.print then [.print assembly.printedListing] else []) ++ [.makeRoomFor options.output], _,
    by simp only [deliver, List.append_assoc, List.cons_append, List.nil_append]; rfl, ?_, ?_⟩
  · intro path content h
    cases hp : options.print <;> simp [hp] at h
  · intro path content h
    cases hl : options.listing <;> simp [hl] at h
    rw [h.1]

/-- behind the listing nothing is saved -/
theorem deliver_at_listing {path : String} (hl : options.listing = some path) (assembly : Assembly) :
    ∃ start rest, deliver options assembly = start ++ .save path assembly.listing.toUTF8 :: rest ∧
      ∀ other content, .save other content ∉ rest := by
  refine ⟨(if options.print then [.print assembly.printedListing] else []) ++
      [.makeRoomFor options.output, .save options.output ⟨assembly.image⟩, .note (.cartridgeSaved options.output)], _,
    by simp only [deliver, hl, List.append_assoc, List.cons_append, List.nil_append]; rfl, ?_⟩
  intro other content h
  simp at h

theorem save_mem_deliver {path : String} {content : ByteArray} (h : .save path content ∈ deliver options assembly) :
    path = options.output ∨ options.listing = some path := by
  obtain ⟨start, rest, hparted, hstart, hrest⟩ := deliver_at_image options assembly
  rw [hparted, List.mem_append, List.mem_cons] at h
  rcases h with h | h | h
  · exact absurd h (hstart path content)
  · cases h
    exact .inl rfl
  · exact .inr (hrest path content h)

theorem delivered_performAll {opening : List Action} (ho : ∀ path content, .save path content ∉ opening)
    {before after : Session} (h : performAll (opening ++ deliver options assembly) before = .ok () after) :
    Delivered options assembly before.disk after.disk where
  image_eq := by
    intro hapart
    obtain ⟨start, rest, hparted, _, hrest⟩ := deliver_at_image options assembly
    rw [hparted, ← List.append_assoc] at h
    exact content?_performAll h fun other content' hm => hapart other (hrest other content' hm)
  listing_eq := by
    intro path hl
    obtain ⟨start, rest, hparted, hrest⟩ := deliver_at_listing hl assembly
    rw [hparted, ← List.append_assoc] at h
    exact content?_performAll h fun other content' hm => absurd hm (hrest other content')
  others := by
    intro place content himage hlisting
    refine find?_performAll h (fun path content' hm => ?_) content
    rcases List.mem_append.1 hm with hm | hm
    · exact absurd hm (ho path content')
    · rcases save_mem_deliver hm with rfl | hl
      · exact himage
      · exact hlisting path hl

end Plan

/-! The demo's program has no variables: a term that matches on its compilation is opened by compiling it. So below
such a term is a variable before the match around it is opened. -/

theorem plan_cases (options : Options) :
    (∃ assembly trace, compileFrame [] = .ok assembly trace ∧
      plan options = (trace.map .assembler).map .note ++ deliver options assembly) ∨
    ∃ fault trace, compileFrame [] = .error fault trace ∧
      plan options = (trace.map .assembler).map .note ++ [.fail fault] := by
  generalize hplan : plan = opened
  delta plan at hplan
  subst hplan
  simp only [List.map_map]
  generalize compileFrame [] = compiled
  cases compiled with
  | ok assembly trace => exact .inl ⟨assembly, trace, rfl, rfl⟩
  | error fault trace => exact .inr ⟨fault, trace, rfl, rfl⟩

theorem run_eq_zero_iff {options : Options} {before after : Session} :
    run options before = (0, after) ↔ performAll (plan options) before = .ok () after := by
  generalize hrun : run = opened
  delta run at hrun
  subst hrun
  simp only
  generalize performAll (plan options) before = result
  cases result <;> simp

theorem invoke_of_run {arguments : List String} {options : Options}
    (h : Request.ofArguments arguments = .run options) {disk : Disk} {exit : Nat} {session : Session}
    (hrun : run options ⟨disk, "", []⟩ = (exit, session)) :
    invoke arguments disk = ⟨exit, session.screen, logLines options.level session.notices, session.disk⟩ := by
  obtain ⟨opened, hopened⟩ : ∃ opened, run = opened := ⟨run, rfl⟩
  unfold invoke
  rw [hopened] at hrun ⊢
  rw [h]
  simp only [hrun]

theorem delivered_plan {options : Options} {before after : Session}
    (h : performAll (plan options) before = .ok () after) :
    ∃ assembly trace, compileFrame [] = .ok assembly trace ∧ Delivered options assembly before.disk after.disk := by
  rcases plan_cases options with ⟨assembly, trace, hframe, hplan⟩ | ⟨fault, trace, _, hplan⟩ <;> rw [hplan] at h
  · exact ⟨assembly, trace, hframe, delivered_performAll (by simp) h⟩
  · obtain ⟨_, _, h⟩ := performAll_append_iff.1 h
    obtain ⟨_, hfail, _⟩ := performAll_cons_iff.1 h
    cases hfail

/-- **The demo delivers what it was asked for.** If it ends with exit code zero, and was not asked for help or its
version, then its program compiled to an image of 4096 bytes, the listing is under its path, the image is under its
own unless the listing was saved at the same place, and every other file is as it was. -/
theorem delivered_invoke (arguments : List String) (disk : Disk) (hexit : (invoke arguments disk).exit = 0)
    (hhelp : Request.ofArguments arguments ≠ .help) (hversion : Request.ofArguments arguments ≠ .version) :
    ∃ options assembly trace, Request.ofArguments arguments = .run options ∧
      compileFrame [] = .ok assembly trace ∧ assembly.image.size = 4096 ∧
      Delivered options assembly disk (invoke arguments disk).disk := by
  cases hrequest : Request.ofArguments arguments with
  | help => exact absurd hrequest hhelp
  | version => exact absurd hrequest hversion
  | misuse misuse =>
    unfold invoke at hexit
    rw [hrequest] at hexit
    cases hexit
  | run options =>
    obtain ⟨⟨exit, session⟩, hrun⟩ : ∃ result, run options ⟨disk, "", []⟩ = result := ⟨_, rfl⟩
    rw [invoke_of_run hrequest hrun] at hexit ⊢
    cases hexit
    obtain ⟨assembly, trace, hframe, hdelivered⟩ := delivered_plan (run_eq_zero_iff.1 hrun)
    exact ⟨options, assembly, trace, rfl, hframe, size_image_of_compileFrame hframe, hdelivered⟩

/-! ## Two runs -/

theorem performAll_note (notices : List Notice) (session : Session) :
    performAll (notices.map .note) session = .ok () { session with notices := session.notices ++ notices } := by
  induction notices generalizing session with
  | nil => rw [List.append_nil]; rfl
  | cons notice notices ih =>
    refine performAll_cons_iff.2 ⟨{ session with notices := session.notices ++ [notice] }, rfl, ?_⟩
    rw [ih, List.append_assoc]
    rfl

def savedNotices (output listing : String) (assembly : Assembly) : List Notice :=
  [.cartridgeSaved output, .listingSaved listing, .programBytes assembly.bytes.size assembly.image.size]

/-- a disk that takes both files lets the demo end well -/
theorem invoke_of_saves {arguments : List String} {output listing : String} {level : Level}
    {disk ready imaged listed : Disk} {assembly : Assembly} {trace : List Event}
    (hrequest : Request.ofArguments arguments = .run ⟨output, some listing, false, level⟩)
    (hframe : compileFrame [] = .ok assembly trace)
    (hroom : ∀ notices, perform (.makeRoomFor output) ⟨disk, "", notices⟩ = .ok () ⟨ready, "", notices⟩)
    (himage : ready.save (Path.ofString output) ⟨assembly.image⟩ = .ok imaged)
    (hlisting : imaged.save (Path.ofString listing) assembly.listing.toUTF8 = .ok listed) :
    invoke arguments disk =
      ⟨0, "", logLines level (trace.map .assembler ++ savedNotices output listing assembly), listed⟩ := by
  have hsave : ∀ {path content} {before after : Disk} (notices : List Notice),
      before.save (Path.ofString path) content = .ok after →
        perform (.save path content) ⟨before, "", notices⟩ = .ok () ⟨after, "", notices⟩ := by
    intro path content before after notices h
    simp only [perform, h]
  have hdeliver : performAll (deliver ⟨output, some listing, false, level⟩ assembly)
      ⟨disk, "", trace.map .assembler⟩ =
        .ok () ⟨listed, "", trace.map .assembler ++ savedNotices output listing assembly⟩ := by
    refine performAll_cons_iff.2 ⟨_, hroom _, performAll_cons_iff.2 ⟨_, hsave _ himage, ?_⟩⟩
    refine performAll_cons_iff.2 ⟨_, rfl, performAll_cons_iff.2 ⟨_, hsave _ hlisting, ?_⟩⟩
    have hnotes := performAll_note [.listingSaved listing, .programBytes assembly.bytes.size assembly.image.size]
      ⟨listed, "", trace.map .assembler ++ [.cartridgeSaved output]⟩
    rw [List.append_assoc] at hnotes
    exact hnotes
  have hplan : performAll (plan ⟨output, some listing, false, level⟩) ⟨disk, "", []⟩ =
      .ok () ⟨listed, "", trace.map .assembler ++ savedNotices output listing assembly⟩ := by
    rcases plan_cases ⟨output, some listing, false, level⟩ with ⟨_, _, h, hplan⟩ | ⟨_, _, h, _⟩
    · rw [hframe] at h
      cases h
      rw [hplan]
      exact performAll_append_iff.2 ⟨_, performAll_note _ _, hdeliver⟩
    · rw [hframe] at h
      cases h
  exact invoke_of_run hrequest (run_eq_zero_iff.2 hplan)

/-- a disk with a file that will be replaced and one that will not -/
def shelf : Disk :=
  ⟨[(["y"], .file ⟨#[1]⟩), (["z"], .file ⟨#[2]⟩)], []⟩

/-- the shelf after the image went into a new directory and the listing over the first file -/
def shelfAfter (assembly : Assembly) : Disk :=
  ((shelf.put ["r"] .directory).put ["r", "x"] (.file ⟨assembly.image⟩)).put ["y"] (.file assembly.listing.toUTF8)

theorem request_shelf : Request.ofArguments ["-o", "r/x", "-l", "y"] = .run ⟨"r/x", some "y", false, .info⟩ := by
  decide +kernel

theorem invoke_shelf {assembly : Assembly} {trace : List Event} (h : compileFrame [] = .ok assembly trace) :
    ∃ log, invoke ["-o", "r/x", "-l", "y"] shelf = ⟨0, "", log, shelfAfter assembly⟩ := by
  have himage : Path.ofString "r/x" = ⟨["r", "x"]⟩ := Path.ofString_text ⟨["r", "x"]⟩ (by decide) (by decide)
  have hlisting : Path.ofString "y" = ⟨["y"]⟩ := Path.ofString_text ⟨["y"]⟩ (by decide) (by decide)
  have hroom : ∀ notices, perform (.makeRoomFor "r/x") ⟨shelf, "", notices⟩ =
      .ok () ⟨shelf.put ["r"] .directory, "", notices⟩ := by
    intro notices
    simp only [perform, himage]
    rfl
  exact ⟨_, invoke_of_saves request_shelf h hroom (by rw [himage]; rfl) (by rw [hlisting]; rfl)⟩

theorem delivered_shelf :
    (invoke ["-o", "r/x", "-l", "y"] shelf).exit = 0 ∧
    ∃ assembly trace, compileFrame [] = .ok assembly trace ∧ assembly.image.size = 4096 ∧
      (invoke ["-o", "r/x", "-l", "y"] shelf).disk.content? (Path.ofString "r/x") = some ⟨assembly.image⟩ ∧
      (invoke ["-o", "r/x", "-l", "y"] shelf).disk.content? (Path.ofString "y") = some assembly.listing.toUTF8 ∧
      (invoke ["-o", "r/x", "-l", "y"] shelf).disk.find? ["z"] = some (.file ⟨#[2]⟩) := by
  obtain ⟨assembly, trace, hframe⟩ := compileFrame_succeeds
  obtain ⟨_, hinvoke⟩ := invoke_shelf hframe
  have hexit : (invoke ["-o", "r/x", "-l", "y"] shelf).exit = 0 := by rw [hinvoke]
  obtain ⟨options, compiled, _, hoptions, hcompiled, hsize, hdelivered⟩ :=
    delivered_invoke ["-o", "r/x", "-l", "y"] shelf hexit (by rw [request_shelf]; simp) (by rw [request_shelf]; simp)
  rw [request_shelf] at hoptions
  rw [hframe] at hcompiled
  cases hoptions
  cases hcompiled
  have houtput : (shelfAfter assembly).filePlace (Path.ofString "r/x") = .ok ["r", "x"] := by
    have hpath : Path.ofString "r/x" = ⟨["r", "x"]⟩ := Path.ofString_text ⟨["r", "x"]⟩ (by decide) (by decide)
    rw [hpath]
    rfl
  have hlisting : (shelfAfter assembly).filePlace (Path.ofString "y") = .ok ["y"] := by
    have hpath : Path.ofString "y" = ⟨["y"]⟩ := Path.ofString_text ⟨["y"]⟩ (by decide) (by decide)
    rw [hpath]
    rfl
  refine ⟨hexit, assembly, trace, hframe, hsize, hdelivered.image_eq ?_, hdelivered.listing_eq "y" rfl,
    (hdelivered.others ["z"] _ ?_ ?_).2 rfl⟩ <;> rw [hinvoke]
  · rintro _ ⟨rfl⟩ ⟨place, hx, hy⟩
    rw [houtput] at hx
    rw [hlisting, ← hx] at hy
    exact absurd hy (by decide)
  · rw [houtput]
    decide
  · rintro _ ⟨rfl⟩
    rw [hlisting]
    decide

/-- **One path for both.** The demo reports the image as saved and ends well, but the file is the listing. -/
theorem image_overwritten :
    ∃ assembly trace notices, compileFrame [] = .ok assembly trace ∧
      Request.ofArguments ["-o", "x", "-l", "x"] = .run ⟨"x", some "x", false, .info⟩ ∧
      (invoke ["-o", "x", "-l", "x"] ⟨[], []⟩).exit = 0 ∧
      (invoke ["-o", "x", "-l", "x"] ⟨[], []⟩).log = logLines .info notices ∧ .cartridgeSaved "x" ∈ notices ∧
      (invoke ["-o", "x", "-l", "x"] ⟨[], []⟩).disk.content? (Path.ofString "x") = some assembly.listing.toUTF8 ∧
      (invoke ["-o", "x", "-l", "x"] ⟨[], []⟩).disk.content? (Path.ofString "x") ≠ some ⟨assembly.image⟩ := by
  have hrequest : Request.ofArguments ["-o", "x", "-l", "x"] = .run ⟨"x", some "x", false, .info⟩ := by
    decide +kernel
  have hpath : Path.ofString "x" = ⟨["x"]⟩ := Path.ofString_text ⟨["x"]⟩ (by decide) (by decide)
  obtain ⟨assembly, trace, hframe⟩ := compileFrame_succeeds
  have hroom : ∀ notices, perform (.makeRoomFor "x") ⟨⟨[], []⟩, "", notices⟩ = .ok () ⟨⟨[], []⟩, "", notices⟩ := by
    intro notices
    simp only [perform, hpath]
    rfl
  have hinvoke : invoke ["-o", "x", "-l", "x"] ⟨[], []⟩ = ⟨0, "", _, ⟨[(["x"], .file assembly.listing.toUTF8)], []⟩⟩ :=
    invoke_of_saves hrequest hframe hroom (by rw [hpath]; rfl) (by rw [hpath]; rfl)
  have hcontent : Disk.content? ⟨[(["x"], .file assembly.listing.toUTF8)], []⟩ ⟨["x"]⟩ =
      some assembly.listing.toUTF8 := rfl
  refine ⟨assembly, trace, trace.map .assembler ++ savedNotices "x" "x" assembly, hframe, hrequest, ?_⟩
  rw [hinvoke, hpath, hcontent]
  refine ⟨rfl, rfl, ?_, rfl, ?_⟩
  · simp [savedNotices]
  · exact fun h => listing_ne_image hframe (Option.some.inj h)

end Asm6502.Demo
