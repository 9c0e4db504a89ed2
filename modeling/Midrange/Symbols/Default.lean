import Std.Data.TreeMap
import Midrange.Text.Format

namespace Midrange

/-- One bit of the registers of a given name. -/
structure BitRef where
  register : String
  bit : Int
  deriving DecidableEq, Repr

namespace BitRef

instance : Ord BitRef where
  compare := compareLex (compareOn register) (compareOn bit)

instance : Std.TransOrd BitRef :=
  inferInstanceAs (Std.TransCmp (compareLex (compareOn register) (compareOn bit)))

instance : Std.LawfulEqOrd BitRef where
  eq_of_compare {left right} hcompare := by
    obtain ⟨hregister, hbit⟩ := Ordering.then_eq_eq.mp hcompare
    cases left
    cases right
    simp only [compareOn] at hregister hbit
    rw [BitRef.mk.injEq]
    exact ⟨Std.compare_eq_iff_eq.mp hregister, Std.compare_eq_iff_eq.mp hbit⟩

end BitRef

namespace Symbols

/-- The address at which a program starts. -/
def resetVector : Int := 0x0000

/-- The address to which an interrupt branches. -/
def interruptVector : Int := 0x0004

/-- The number of words of program memory in the largest part. -/
def programLimit : Int := 0x2000

/-- The end of the addresses an image can hold: program, configuration and data memory. -/
def imageLimit : Int := 0x2200

def configAddress : Int := 0x2007

def dataMemoryStart : Int := 0x2100

def dataMemoryStop : Int := 0x2200

/-- The names of the two vectors. -/
def defaultLabels : List (Int × String) := [
  (resetVector, "reset_vector"),
  (interruptVector, "interrupt_vector")]

/-- The registers that stand at the same place in every bank. -/
def sharedRegisters : List (Int × String) := [
  (0x00, "INDF"), (0x02, "PCL"), (0x03, "STATUS"), (0x04, "FSR"), (0x0a, "PCLATH"),
  (0x0b, "INTCON")]

/-- The special function registers that belong to one bank, under their full numbers. -/
def bankedRegisters : List (Int × String) := [
  (0x001, "TMR0"), (0x005, "PORTA"), (0x006, "PORTB"), (0x007, "PORTC"), (0x008, "PORTD"),
  (0x009, "PORTE"), (0x00c, "PIR1"), (0x00d, "PIR2"), (0x00e, "TMR1L"), (0x00f, "TMR1H"),
  (0x010, "T1CON"), (0x011, "TMR2"), (0x012, "T2CON"), (0x013, "SSPBUF"), (0x014, "SSPCON"),
  (0x015, "CCPR1L"), (0x016, "CCPR1H"), (0x017, "CCP1CON"), (0x018, "RCSTA"), (0x019, "TXREG"),
  (0x01a, "RCREG"), (0x01b, "CCPR2L"), (0x01c, "CCPR2H"), (0x01d, "CCP2CON"), (0x01e, "ADRESH"),
  (0x01f, "ADCON0"),
  (0x081, "OPTION_REG"), (0x085, "TRISA"), (0x086, "TRISB"), (0x087, "TRISC"), (0x088, "TRISD"),
  (0x089, "TRISE"), (0x08c, "PIE1"), (0x08d, "PIE2"), (0x08e, "PCON"), (0x091, "SSPCON2"),
  (0x092, "PR2"), (0x093, "SSPADD"), (0x094, "SSPSTAT"), (0x098, "TXSTA"), (0x099, "SPBRG"),
  (0x09c, "CMCON"), (0x09d, "CVRCON"), (0x09e, "ADRESL"), (0x09f, "ADCON1"),
  (0x101, "TMR0"), (0x106, "PORTB"), (0x10c, "EEDATA"), (0x10d, "EEADR"), (0x10e, "EEDATH"),
  (0x10f, "EEADRH"),
  (0x181, "OPTION_REG"), (0x186, "TRISB"), (0x18c, "EECON1"), (0x18d, "EECON2")]

/-- The register names of the largest part, which cover those of the smaller ones. -/
def defaultRegisters : Std.TreeMap Int String :=
  .ofList <|
    ([0, 1, 2, 3].flatMap fun bank : Int =>
      sharedRegisters.map fun (offset, name) => (0x80 * bank + offset, name)) ++
    bankedRegisters

/-- The names of bits, register by register. -/
def bitNames : List (String × List (Int × String)) := [
  ("STATUS", [(0, "C"), (1, "DC"), (2, "Z"), (3, "NOT_PD"), (4, "NOT_TO"), (5, "RP0"), (6, "RP1"),
    (7, "IRP")]),
  ("PCLATH", [(3, "PCLATH3"), (4, "PCLATH4")]),
  ("INTCON", [(0, "RBIF"), (1, "INTF"), (2, "TMR0IF"), (3, "RBIE"), (4, "INTE"), (5, "TMR0IE"),
    (6, "PEIE"), (7, "GIE")]),
  ("OPTION_REG", [(0, "PS0"), (1, "PS1"), (2, "PS2"), (3, "PSA"), (4, "T0SE"), (5, "T0CS"),
    (6, "INTEDG"), (7, "NOT_RBPU")]),
  ("PIR1", [(0, "TMR1IF"), (1, "TMR2IF"), (2, "CCP1IF"), (3, "SSPIF"), (4, "TXIF"), (5, "RCIF"),
    (6, "ADIF"), (7, "PSPIF")]),
  ("PIE1", [(0, "TMR1IE"), (1, "TMR2IE"), (2, "CCP1IE"), (3, "SSPIE"), (4, "TXIE"), (5, "RCIE"),
    (6, "ADIE"), (7, "PSPIE")]),
  ("PIR2", [(0, "CCP2IF"), (3, "BCLIF"), (4, "EEIF"), (6, "CMIF")]),
  ("PIE2", [(0, "CCP2IE"), (3, "BCLIE"), (4, "EEIE"), (6, "CMIE")]),
  ("T1CON", [(0, "TMR1ON"), (1, "TMR1CS"), (2, "NOT_T1SYNC"), (3, "T1OSCEN"), (4, "T1CKPS0"),
    (5, "T1CKPS1")]),
  ("T2CON", [(0, "T2CKPS0"), (1, "T2CKPS1"), (2, "TMR2ON"), (3, "TOUTPS0"), (4, "TOUTPS1"),
    (5, "TOUTPS2"), (6, "TOUTPS3")]),
  ("RCSTA", [(0, "RX9D"), (1, "OERR"), (2, "FERR"), (3, "ADDEN"), (4, "CREN"), (5, "SREN"),
    (6, "RX9"), (7, "SPEN")]),
  ("TXSTA", [(0, "TX9D"), (1, "TRMT"), (2, "BRGH"), (4, "SYNC"), (5, "TXEN"), (6, "TX9"),
    (7, "CSRC")]),
  ("ADCON0", [(0, "ADON"), (2, "GO_DONE"), (3, "CHS0"), (4, "CHS1"), (5, "CHS2"), (6, "ADCS0"),
    (7, "ADCS1")]),
  ("ADCON1", [(0, "PCFG0"), (1, "PCFG1"), (2, "PCFG2"), (3, "PCFG3"), (6, "ADCS2"), (7, "ADFM")]),
  ("EECON1", [(0, "RD"), (1, "WR"), (2, "WREN"), (3, "WRERR"), (7, "EEPGD")]),
  ("PCON", [(0, "NOT_BOR"), (1, "NOT_POR")])]

def defaultBits : Std.TreeMap BitRef String :=
  .ofList <| bitNames.flatMap fun (register, names) =>
    names.map fun (bit, name) => (BitRef.mk register bit, name)

end Symbols

end Midrange
