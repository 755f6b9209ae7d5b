import SsaIr.Machine.Host

/-!
# Probes

Host functions (`SsaIr.Machine.Host`) with which a program can look at the machine it runs on: they
show their arguments, read and write memory, call back into the program, and fail on purpose. An
argument that is not given reads as undefined.
-/

namespace SsaIr

variable {σ : Type}

namespace HostCall

def arg (c : HostCall) (n : Nat) : RuntimeValue := (c.args[n]?.getD .undef : RuntimeValue)

def callee (c : HostCall) : Function := c.context.func c.func

def withParam (c : HostCall) (n : Nat) (k : Ty → HostTask σ) : HostTask σ :=
  match c.callee.signature.bind fun sig => sig.params[n]? with
  | some t => k t
  | none => .stop .crash

def nothing : HostTask σ := .done (.ok .undef)

def storeAs (c : HostCall) (n : Nat) : HostTask σ :=
  c.withParam n fun t => .store (c.arg 0).toAddress t (c.arg 1) (.orFail fun _ => nothing)

def pointeeSize (c : HostCall) : HostTask σ :=
  c.withParam 0 fun t =>
    match t.pointee? with
    | none => .stop .crash
    | some p =>
      match c.layout.sizeOf p with
      | .ok n => .value (.ofInt .w64 n)
      | .error b => .stop b

end HostCall

namespace HostFunction

def showArgs : HostFunction σ := fun c =>
  .print ("@" ++ c.callee.name ++ "(" ++ ", ".intercalate (c.args.map (·.text)) ++ ")\n")
    HostCall.nothing

def sum : HostFunction σ := fun c =>
  .value (.ofInt .w64 (c.args.foldl (fun s v => s + v.toInt) 0))

def readBytes : HostFunction σ := fun c =>
  .read (c.arg 0).toAddress (c.arg 1).toInt (.orFail fun bs =>
    .print (String.join (bs.map fun b => Text.hexByte b.toNat) ++ "\n") HostCall.nothing)

def writeBytes : HostFunction σ := fun c =>
  .write (c.arg 0).toAddress (lowBytes (c.arg 1).bits (c.arg 2).toInt.toInt.toNat)
    (.orFail fun _ => HostCall.nothing)

def readLine : HostFunction σ := fun c =>
  .readText (c.arg 0).toAddress (.orFail fun s =>
    .print (s ++ "\n") (.value (.ofInt .w64 (Int64.ofNat s.length))))

def reserve : HostFunction σ := fun c =>
  .alloc (c.arg 0).toInt (c.arg 1).toInt (.orFail fun a => .value (.ptr a))

def callBack : HostFunction σ := fun c =>
  .functionAt (c.arg 0).toAddress (.orFail fun f => .call f (c.args.drop 1) .done)

def probe? : String → Option (HostFunction σ)
  | "h_show" => some showArgs
  | "h_sum" => some sum
  | "h_read" => some readBytes
  | "h_write" => some writeBytes
  | "h_cstr" => some readLine
  | "h_alloc" => some reserve
  | "h_load" => some fun c => .load (c.arg 0).toAddress c.callee.ret .done
  | "h_store" => some fun c => c.storeAs 1
  | "h_misstore" => some fun c => c.storeAs 0
  | "h_call" => some callBack
  | "h_size" => some HostCall.pointeeSize
  | "h_fail" => some fun _ => .fail "host failure"
  | "h_fault" => some fun _ => .done (.error (.charged "" (.reported .intDivByZero "from host")))
  | "h_bad" => some fun _ => .value (.f64 0x3FF8000000000000)
  | "h_undef" => some fun _ => HostCall.nothing
  | _ => none

end HostFunction

end SsaIr
