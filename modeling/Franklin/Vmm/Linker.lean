import Franklin.Vmm.Basic

/-!
This module contains the addresses that `kernel/linker.ld` gives to the sections of the kernel.
-/

namespace Franklin
namespace Vmm

structure Sections where
  text : Nat
  rodata : Nat
  data : Nat

namespace Sections

-- GNUmakefile: -z max-page-size=0x1000
def MAXPAGESIZE : Nat := 0x1000

def text_start_addr : Nat := 0xffffffff80000000

variable (sections : Sections)

def text_end_addr : Nat := text_start_addr + sections.text

def rodata_start_addr : Nat := sections.text_end_addr + MAXPAGESIZE

def rodata_end_addr : Nat := sections.rodata_start_addr + sections.rodata

def data_start_addr : Nat := sections.rodata_end_addr + MAXPAGESIZE

def data_end_addr : Nat := sections.data_start_addr + sections.data

def image (virtual_base physical_base : BitVec 64) : KernelImage :=
  { text_start_addr := BitVec.ofNat 64 text_start_addr
    text_end_addr := BitVec.ofNat 64 sections.text_end_addr
    rodata_start_addr := BitVec.ofNat 64 sections.rodata_start_addr
    rodata_end_addr := BitVec.ofNat 64 sections.rodata_end_addr
    data_start_addr := BitVec.ofNat 64 sections.data_start_addr
    data_end_addr := BitVec.ofNat 64 sections.data_end_addr
    virtual_base
    physical_base }

end Sections

end Vmm
end Franklin
